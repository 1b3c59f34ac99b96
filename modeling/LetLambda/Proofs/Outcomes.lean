import LetLambda.Proofs.Formula
import LetLambda.Proofs.Preservation

/-!
# What comes of a formula and of its transform

Run as it is, a formula comes to its meaning from left to right (`comes_eager`). Its transform comes
to its meaning with calls first (`comes_of_passes`): what is left of an operand becomes a part of
the term that the next call hands its value to, and there it waits.

A run of either only adds frames. What is left of an operand stands for the same value or error
wherever the names that it reads are still seen with the values that they had (`Stands`), and the
names that the transform has drawn do not hide each other (`Stage`).
-/

namespace LetLambda

open Symbols (Generated nameOf)

variable {hosts : Hosts} {convention : Convention}

/-! ### What comes of terms -/

section

variable (hosts convention)

/-- Evaluating `t` in frame `j` comes to `r`, and only adds frames. -/
def Comes (t : Code) (j : FrameId) (w : World) (r : Except EvalError Value) : Prop :=
  ∃ w', w.Still w' ∧
    ∃ n, ∀ fuel, n ≤ fuel → Direct.evaluate hosts convention fuel t j w = some (r, w')

/-- Evaluating arguments comes to `r`, and only adds frames. -/
def ComesAll (ts : List Code) (j : FrameId) (w : World) (r : Except EvalError (List Value)) :
    Prop :=
  ∃ w', w.Still w' ∧
    ∃ n, ∀ fuel, n ≤ fuel → Direct.arguments hosts convention fuel ts j w = some (r, w')

end

/-- The world in which a frame inside `i` has come in that binds parameters. -/
def World.entered (w : World) (i : FrameId) (xs : List Name) (vs : List Value) : World :=
  (Direct.enter w i fun store frame => store.defineAll frame xs vs).2

theorem World.still_entered (w : World) (i : FrameId) (xs : List Name) (vs : List Value) :
    w.Still (w.entered i xs vs) := by
  refine ⟨?_, rfl⟩
  rw [World.entered, Direct.enter_defineAll]
  exact ((Scene.enters_push _ i).setAll xs vs).grows _

section

variable {t left right callee : Code} {ts args : List Code} {j i : FrameId} {w : World} {x : Name}

theorem comes_of_succ {r : Except EvalError Value}
    (h : ∀ fuel, Direct.evaluate hosts convention (fuel + 1) t j w = some (r, w)) :
    Comes hosts convention t j w r := by
  refine ⟨w, .refl w, 1, fun fuel hfuel => ?_⟩
  obtain ⟨k, rfl⟩ := Nat.exists_eq_add_of_le' hfuel
  exact h k

theorem comes_int (n : Int64) : Comes hosts convention (.int n) j w (.ok (.int n)) :=
  comes_of_succ fun _ => rfl

theorem comes_var {v : Value} (h : w.store.scene.lookup j x = some v) :
    Comes hosts convention (.var x) j w (.ok v) := by
  refine comes_of_succ fun fuel => ?_
  rw [Store.scene_lookup] at h
  rw [Direct.evaluate, Store.get, h]

/-- A function literal without a name. -/
theorem comes_literal (label : Nat) (params : List Name) (body : Code) :
    Comes hosts convention (.function label none params body) j w
      (.ok (.closure ⟨label, none, params, body⟩ j)) := comes_of_succ fun _ => rfl

theorem comes_negate {a : Except EvalError Value} (h : Comes hosts convention t j w a) :
    Comes hosts convention (.negate t) j w (do
      let v ← a
      return Formula.negated v) := by
  obtain ⟨w₁, hstill, n, h⟩ := h
  refine ⟨w₁, hstill, n + 1, fun fuel hfuel => ?_⟩
  obtain ⟨k, rfl⟩ := Nat.exists_eq_add_of_le hfuel
  rw [Nat.add_right_comm, Direct.evaluate, h _ (Nat.le_add_right n k)]
  cases a <;> rfl

theorem comes_binary (op : BinaryOp) {a b : Except EvalError Value}
    (hl : Comes hosts convention left j w a)
    (hr : ∀ w₁, w.Still w₁ → Comes hosts convention right j w₁ b) :
    Comes hosts convention (.binary op.symbol left right) j w (do
      let v ← a
      let u ← b
      Value.operate op v u) := by
  obtain ⟨w₁, hstill, m, hl⟩ := hl
  cases a with
  | error e =>
    refine ⟨w₁, hstill, m + 1, fun fuel hfuel => ?_⟩
    obtain ⟨k, rfl⟩ := Nat.exists_eq_add_of_le hfuel
    rw [Nat.add_right_comm, Direct.evaluate, hl _ (Nat.le_add_right m k)]
    rfl
  | ok v =>
    obtain ⟨w₂, hstill', n, hr⟩ := hr w₁ hstill
    refine ⟨w₂, hstill.trans hstill', m + n + 1, fun fuel hfuel => ?_⟩
    obtain ⟨k, rfl⟩ := Nat.exists_eq_add_of_le hfuel
    rw [Nat.add_right_comm, Direct.evaluate, hl _ (by omega)]
    simp only [Option.bind_eq_bind, Option.bind_some]
    rw [hr _ (by omega)]
    cases b with
    | error e => rfl
    | ok u =>
      simp only [Option.bind_some, Value.operateSymbol, BinaryOp.ofSymbol?_symbol]
      rfl

theorem comesAll_nil : ComesAll hosts convention [] j w (.ok []) := by
  refine ⟨w, .refl w, 1, fun fuel hfuel => ?_⟩
  obtain ⟨k, rfl⟩ := Nat.exists_eq_add_of_le' hfuel
  rfl

theorem comesAll_cons {a : Except EvalError Value} {as : Except EvalError (List Value)}
    (ht : Comes hosts convention t j w a)
    (hts : ∀ w₁, w.Still w₁ → ComesAll hosts convention ts j w₁ as) :
    ComesAll hosts convention (t :: ts) j w (do
      let v ← a
      let vs ← as
      return v :: vs) := by
  obtain ⟨w₁, hstill, m, ht⟩ := ht
  cases a with
  | error e =>
    refine ⟨w₁, hstill, m + 1, fun fuel hfuel => ?_⟩
    obtain ⟨k, rfl⟩ := Nat.exists_eq_add_of_le hfuel
    rw [Nat.add_right_comm, Direct.arguments, ht _ (Nat.le_add_right m k)]
    rfl
  | ok v =>
    obtain ⟨w₂, hstill', n, hts⟩ := hts w₁ hstill
    refine ⟨w₂, hstill.trans hstill', m + n + 1, fun fuel hfuel => ?_⟩
    obtain ⟨k, rfl⟩ := Nat.exists_eq_add_of_le hfuel
    rw [Nat.add_right_comm, Direct.arguments, ht _ (by omega)]
    simp only [Option.bind_eq_bind, Option.bind_some]
    rw [hts _ (by omega)]
    cases as <;> rfl

theorem comes_call {lambda : Lambda} {as : Except EvalError (List Value)}
    {r : List Value → Except EvalError Value}
    (hf : Comes hosts convention callee j w (.ok (.closure lambda i)))
    (hargs : ∀ w₁, w.Still w₁ → ComesAll hosts convention args j w₁ as)
    (hbody : ∀ w₁ vs, w.Still w₁ → as = .ok vs →
      Comes hosts convention lambda.body w₁.store.scene.size (w₁.entered i lambda.params vs)
        (r vs)) :
    Comes hosts convention (.call callee args) j w (do
      let vs ← as
      r vs) := by
  obtain ⟨w₁, hstill₁, l, hf⟩ := hf
  obtain ⟨w₂, hstill₂, m, hargs⟩ := hargs w₁ hstill₁
  have hstill := hstill₁.trans hstill₂
  cases as with
  | error e =>
    refine ⟨w₂, hstill, l + m + 1, fun fuel hfuel => ?_⟩
    obtain ⟨k, rfl⟩ := Nat.exists_eq_add_of_le hfuel
    rw [Nat.add_right_comm, Direct.evaluate, hf _ (by omega)]
    simp only [Option.bind_eq_bind, Option.bind_some]
    rw [hargs _ (by omega)]
    rfl
  | ok vs =>
    obtain ⟨w₃, hstill₃, n, hbody⟩ := hbody w₂ vs hstill rfl
    refine ⟨w₃, hstill.trans ((w₂.still_entered i _ vs).trans hstill₃), l + m + n + 2,
      fun fuel hfuel => ?_⟩
    obtain ⟨k, rfl⟩ := Nat.exists_eq_add_of_le hfuel
    rw [show l + m + n + 2 + k = l + m + n + k + 1 + 1 by omega, Direct.evaluate, hf _ (by omega)]
    simp only [Option.bind_eq_bind, Option.bind_some]
    rw [hargs _ (by omega)]
    simp only [Option.bind_some]
    rw [Direct.apply]
    exact hbody _ (by omega)

end

/-! ### What is seen from a frame -/

namespace Scene

variable {V W : Scene} {i f : FrameId} {x : Name} {v : Value}

/-- A name that is bound in the frame that has come in. -/
theorem Enters.lookup_of_slot (h : V.Enters i W) (hx : W.slot V.size x = some v) :
    W.lookup V.size x = some v := by
  have hresolve : W.resolve V.size x = some V.size := by
    rw [Scene.resolve, h.chain, List.find?_cons_of_pos]
    rw [hx]
    rfl
  rw [Scene.lookup, hresolve, Option.bind_some, hx]

/-- A name that is not bound there is seen as it was. -/
theorem Enters.lookup_of_slot_eq_none (h : V.Enters i W) (hi : ∀ g ∈ V.chain i, g < V.size)
    (hx : W.slot V.size x = none) : W.lookup V.size x = V.lookup i x := by
  have hslot : ∀ g ∈ V.chain i, W.slot g x = V.slot g x := fun g hg =>
    h.slot g (Nat.ne_of_lt (hi g hg)) x
  have hresolve : W.resolve V.size x = V.resolve i x := by
    rw [Scene.resolve, h.chain, List.find?_cons_of_neg, Scene.resolve]
    · exact List.find?_congr fun g hg => by rw [hslot g hg]
    · rw [hx]
      exact Bool.false_ne_true
  rw [Scene.lookup, hresolve, Scene.lookup]
  exact Option.bind_congr fun g hg => hslot g (mem_chain_of_resolve hg)

/-- Parameters are bound in a frame as they are in a valuation. -/
theorem setAll_slot_bindAll {xs : List Name} {ρ : Valuation} (vs : List Value)
    (h : V.slot f x = some (ρ x) ∨ x ∈ xs) :
    (V.setAll f xs vs).slot f x = some (ρ.bindAll xs vs x) := by
  induction xs generalizing V ρ vs with
  | nil => exact h.resolve_right List.not_mem_nil
  | cons y xs ih =>
    have hset (a : Value) : (V.set f y a).slot f x = some (ρ.bind y a x) ∨ x ∈ xs := by
      by_cases hy : x = y
      · subst hy
        left
        rw [set_slot_self, Valuation.bind, if_pos rfl]
      · rw [set_slot_of_name_ne hy, Valuation.bind, if_neg hy]
        exact h.imp id fun hmem => (List.mem_cons.mp hmem).resolve_left hy
    cases vs with
    | nil => exact ih [] (hset .absent)
    | cons v vs => exact ih vs (hset v)

end Scene

/-- All frames in which names are looked up from frame `j` are there. -/
def World.Rooted (w : World) (j : FrameId) : Prop :=
  ∀ g ∈ w.store.scene.chain j, g < w.store.scene.size

/-- Seen from frame `j`, the names of `scope` stand for what `ρ` says. -/
structure Sees (scope : List Name) (ρ : Valuation) (j : FrameId) (w : World) : Prop where
  rooted : w.Rooted j
  lookup : ∀ x ∈ scope, w.store.scene.lookup j x = some (ρ x)

section

variable {scope : List Name} {ρ : Valuation} {j : FrameId} {w w' : World} {xs : List Name}
  {x : Name}

theorem World.Still.lookup (h : w.Still w') (hj : w.Rooted j) (x : Name) :
    w'.store.scene.lookup j x = w.store.scene.lookup j x :=
  h.grows.lookup hj fun _ => trivial

theorem World.Still.rooted (h : w.Still w') (hj : w.Rooted j) : w'.Rooted j := by
  rw [World.Rooted, h.grows.chain (hj j List.mem_cons_self)]
  exact fun g hg => Nat.lt_of_lt_of_le (hj g hg) h.grows.size_le

theorem World.enters_entered (w : World) (j : FrameId) (xs : List Name) (vs : List Value) :
    w.store.scene.Enters j (w.entered j xs vs).store.scene := by
  rw [World.entered, Direct.enter_defineAll]
  exact (Scene.enters_push _ j).setAll xs vs

theorem World.rooted_entered (hj : w.Rooted j) (xs : List Name) (vs : List Value) :
    (w.entered j xs vs).Rooted w.store.scene.size := by
  have h := w.enters_entered j xs vs
  rw [World.Rooted, h.chain, h.size]
  exact List.forall_mem_cons.mpr ⟨Nat.lt_succ_self _, fun g hg => Nat.lt_succ_of_lt (hj g hg)⟩

/-- A parameter is seen in the frame that binds it. -/
theorem World.lookup_entered_of_mem (w : World) (j : FrameId) (h : x ∈ xs) (ρ : Valuation)
    (vs : List Value) :
    (w.entered j xs vs).store.scene.lookup w.store.scene.size x = some (ρ.bindAll xs vs x) := by
  refine (w.enters_entered j xs vs).lookup_of_slot ?_
  rw [World.entered, Direct.enter_defineAll]
  exact Scene.setAll_slot_bindAll vs (.inr h)

/-- Any other name is seen there as it was outside. -/
theorem World.lookup_entered_of_not_mem (hj : w.Rooted j) (h : x ∉ xs) (vs : List Value) :
    (w.entered j xs vs).store.scene.lookup w.store.scene.size x = w.store.scene.lookup j x := by
  refine (w.enters_entered j xs vs).lookup_of_slot_eq_none hj ?_
  rw [World.entered, Direct.enter_defineAll, Scene.setAll_slot_of_not_mem _ _ h, Scene.push_slot]
  exact Store.scene_blank _ _ _ (Nat.le_refl _)

theorem Sees.still (h : Sees scope ρ j w) (hstill : w.Still w') : Sees scope ρ j w' :=
  ⟨hstill.rooted h.rooted, fun x hx => (hstill.lookup h.rooted x).trans (h.lookup x hx)⟩

theorem Sees.entered (h : Sees scope ρ j w) (xs : List Name) (vs : List Value) :
    Sees (xs ++ scope) (ρ.bindAll xs vs) w.store.scene.size (w.entered j xs vs) := by
  refine ⟨World.rooted_entered h.rooted xs vs, fun x hx => ?_⟩
  by_cases hmem : x ∈ xs
  · exact w.lookup_entered_of_mem j hmem ρ vs
  · rw [World.lookup_entered_of_not_mem h.rooted hmem, Valuation.bindAll_of_not_mem hmem]
    exact h.lookup x ((List.mem_append.mp hx).resolve_left hmem)

end

/-! ### Run as it is -/

namespace Formula

mutual

/-- **A formula comes to its meaning from left to right.** -/
theorem comes_eager (f : Formula) {scope : List Name} {ρ : Valuation}
    (hf : f.usesOnly scope = true) {c : Code} (hc : c.erase = f.tree) {j : FrameId} {w : World}
    (hsees : Sees scope ρ j w) : Comes hosts convention c j w (f.eager ρ) := by
  cases f with
  | int n =>
    cases Term.hasTree_of_erase_eq hc
    exact comes_int n
  | var x =>
    cases Term.hasTree_of_erase_eq hc
    exact comes_var (hsees.lookup x (List.contains_iff_mem.mp hf))
  | negate f =>
    cases Term.hasTree_of_erase_eq hc with
    | negate hc => exact comes_negate (comes_eager f hf hc hsees)
  | binary op f g =>
    obtain ⟨hf, hg⟩ := Bool.and_eq_true_iff.mp hf
    cases Term.hasTree_of_erase_eq hc with
    | binary _ hcf hcg =>
      exact comes_binary op (comes_eager f hf hcf hsees)
        fun w₁ hstill => comes_eager g hg hcg (hsees.still hstill)
  | call params body args =>
    obtain ⟨hbody, hargs⟩ := Bool.and_eq_true_iff.mp hf
    cases Term.hasTree_of_erase_eq hc with
    | call hcallee hcargs =>
      cases Term.hasTree_of_erase_eq hcallee with
      | function label _ _ hcbody =>
        refine comes_call (comes_literal label params _)
          (fun w₁ hstill => comesAll_eager args hargs hcargs (hsees.still hstill)) ?_
        intro w₁ vs hstill _
        exact comes_eager body hbody hcbody ((hsees.still hstill).entered params vs)
termination_by structural f

theorem comesAll_eager (fs : List Formula) {scope : List Name} {ρ : Valuation}
    (hfs : usesOnlyAll scope fs = true) {cs : List Code} (hcs : Term.HaveTrees cs (trees fs))
    {j : FrameId} {w : World} (hsees : Sees scope ρ j w) :
    ComesAll hosts convention cs j w (eagerAll fs ρ) := by
  cases fs with
  | nil =>
    cases hcs
    exact comesAll_nil
  | cons f fs =>
    obtain ⟨hf, hfs⟩ := Bool.and_eq_true_iff.mp hfs
    cases hcs with
    | cons hc hcs =>
      exact comesAll_cons (comes_eager f hf hc hsees)
        fun w₁ hstill => comesAll_eager fs hfs hcs (hsees.still hstill)
termination_by structural fs

end

end Formula

/-! ### Run after the transform -/

/-- Frames have come in, and what was seen from frame `j` is seen from frame `j'`. -/
structure Beyond (j : FrameId) (w : World) (j' : FrameId) (w' : World) : Prop where
  still : w.Still w'
  rooted : w'.Rooted j'
  lookup : ∀ x v, w.store.scene.lookup j x = some v → w'.store.scene.lookup j' x = some v

/-- A term can be run in frame `j` without hiding a name that is seen from there: the names that
were drawn for it are all different, and none is in use. -/
structure Stage (m : Code) (j : FrameId) (w : World) : Prop where
  nodup : m.binders.Nodup
  unseen : ∀ b ∈ m.binders, w.store.scene.lookup j b = none

variable (hosts convention) in
/-- A term stands for what is left of an operand, from frame `j` on. -/
def Stands (v : Code) (a : Formula.Residue) (j : FrameId) (w : World) : Prop :=
  ∀ j' w', Beyond j w j' w' → Comes hosts convention v j' w' a

section

variable {j j' j'' : FrameId} {w w' w'' : World} {m m' v : Code} {a b : Formula.Residue}
  {xs scope : List Name} {x : Name} {ρ : Valuation}

theorem Beyond.refl (h : w.Rooted j) : Beyond j w j w := ⟨.refl w, h, fun _ _ hx => hx⟩

theorem Beyond.trans (h : Beyond j w j' w') (h' : Beyond j' w' j'' w'') : Beyond j w j'' w'' :=
  ⟨h.still.trans h'.still, h'.rooted, fun x v hx => h'.lookup x v (h.lookup x v hx)⟩

theorem World.Still.beyond (h : w.Still w') (hj : w.Rooted j) : Beyond j w j w' :=
  ⟨h, h.rooted hj, fun x _ hx => (h.lookup hj x).trans hx⟩

/-- A frame that binds names that were not seen hides nothing. -/
theorem World.Still.beyond_entered (h : w.Still w') (hj : w.Rooted j)
    (hxs : ∀ x ∈ xs, w.store.scene.lookup j x = none) (vs : List Value) :
    Beyond j w w'.store.scene.size (w'.entered j xs vs) := by
  refine ⟨h.trans (w'.still_entered j xs vs), World.rooted_entered (h.rooted hj) xs vs,
    fun x v hx => ?_⟩
  have hmem : x ∉ xs := by
    intro hmem
    rw [hxs x hmem] at hx
    cases hx
  rw [World.lookup_entered_of_not_mem (h.rooted hj) hmem, h.lookup hj, hx]

theorem Sees.beyond (h : Sees scope ρ j w) (hbeyond : Beyond j w j' w') : Sees scope ρ j' w' :=
  ⟨hbeyond.rooted, fun x hx => hbeyond.lookup x _ (h.lookup x hx)⟩

/-- What was drawn for a part of a term is not in use in a frame that binds other names. -/
theorem Stage.entered (h : Stage m j w) (hstill : w.Still w') (hj : w.Rooted j)
    (hsub : m'.binders.Sublist m.binders) (hxs : ∀ b ∈ m'.binders, b ∉ xs) (vs : List Value) :
    Stage m' w'.store.scene.size (w'.entered j xs vs) := by
  refine ⟨h.nodup.sublist hsub, fun b hb => ?_⟩
  rw [World.lookup_entered_of_not_mem (hstill.rooted hj) (hxs b hb), hstill.lookup hj]
  exact h.unseen b (hsub.subset hb)

theorem Stands.beyond (h : Stands hosts convention v a j w) (hbeyond : Beyond j w j' w') :
    Stands hosts convention v a j' w' := fun _ _ hlater => h _ _ (hbeyond.trans hlater)

theorem stands_int (n : Int64) : Stands hosts convention (.int n) (.ok (.int n)) j w :=
  fun _ _ _ => comes_int n

theorem stands_var {u : Value} (h : w.store.scene.lookup j x = some u) :
    Stands hosts convention (.var x) (.ok u) j w :=
  fun _ _ hlater => comes_var (hlater.lookup x u h)

theorem Stands.negate (h : Stands hosts convention v a j w) :
    Stands hosts convention (.negate v) (do
      let u ← a
      return Formula.negated u) j w :=
  fun j' w' hlater => comes_negate (h j' w' hlater)

theorem Stands.binary (op : BinaryOp) {left right : Code} (hl : Stands hosts convention left a j w)
    (hr : Stands hosts convention right b j w) :
    Stands hosts convention (.binary op.symbol left right) (do
      let u ← a
      let r ← b
      Value.operate op u r) j w := by
  intro j' w' hlater
  refine comes_binary op (hl j' w' hlater) fun w₁ hstill => ?_
  exact hr j' w₁ (hlater.trans (hstill.beyond hlater.rooted))

/-- Operands that wait come to their values one after another. -/
theorem comesAll_of_stands {vs : List Code} {as : List Formula.Residue} (hj : w.Rooted j)
    (h : List.Forall₂ (fun v a => Stands hosts convention v a j w) vs as) :
    ComesAll hosts convention vs j w (Formula.force as) := by
  induction vs generalizing w as with
  | nil =>
    cases h
    exact comesAll_nil
  | cons v vs ih =>
    cases h with
    | cons hv hvs =>
      refine comesAll_cons (hv j w (.refl hj)) fun w₁ hstill => ih (hstill.rooted hj) ?_
      exact hvs.imp fun _ _ h => h.beyond (hstill.beyond hj)

/-- What is left of an operand is handed to the function that the transform has made of the rest. -/
theorem comes_jump {target r : Name} {label : Nat} {rest : Code} {i : FrameId}
    {κ : Value → Except EvalError Value} (hj : w.Rooted j)
    (htarget : w.store.scene.lookup j target = some (.closure ⟨label, none, [r], rest⟩ i))
    (hv : Stands hosts convention v a j w)
    (hrest : ∀ w₁ u, w.Still w₁ → a = .ok u →
      Comes hosts convention rest w₁.store.scene.size (w₁.entered i [r] [u]) (κ u)) :
    Comes hosts convention (.call (.var target) [v]) j w (a >>= κ) := by
  have hargs : ∀ w₁, w.Still w₁ → ComesAll hosts convention [v] j w₁ (Formula.force [a]) :=
    fun w₁ hstill => comesAll_of_stands (hstill.rooted hj)
      (.cons (hv.beyond (hstill.beyond hj)) .nil)
  have hresult : (Formula.force [a] >>= fun us => κ (us.headD .absent)) = (a >>= κ) := by
    cases a <;> rfl
  rw [← hresult]
  refine comes_call (comes_var htarget) hargs fun w₁ us hstill hus => ?_
  obtain ⟨u, _, rfl, hnil, rfl⟩ := Formula.force_cons_eq_ok_iff.mp hus
  cases hnil
  exact hrest w₁ u hstill rfl

end

/-! ### Calls of transformed literals -/

/-- The parameters of a transformed literal, the first of which takes the rest. -/
theorem Term.binders_passed (label : Nat) (name? : Option Name) (stem : String) (n : Nat)
    {params : List Name} (h : ∀ x ∈ params, ¬ Generated x) (body : Code) :
    (Term.function label name? (nameOf stem n :: params) body).binders =
      nameOf stem n :: body.binders := by
  have hparams : params.filter (fun x => Generated x) = [] :=
    List.filter_eq_nil_iff.mpr fun x hx hgenerated => h x hx (of_decide_eq_true hgenerated)
  rw [Term.binders, List.filter_cons, if_pos (decide_eq_true (Symbols.generated_nameOf stem n)),
    hparams]
  rfl

/-- The call of a transformed literal: what is to be done with its value comes first. -/
def passedCall (label n : Nat) (params : List Name) (body : Code) (label' n' : Nat) (rest : Code)
    (vs : List Code) : Code :=
  .call (.function label none (nameOf "K" n :: params) body)
    (.function label' none [nameOf "R" n'] rest :: vs)

section

variable {label n label' n' : Nat} {params : List Name} {body rest : Code} {vs : List Code}
  {j : FrameId} {w w₁ : World}

theorem binders_passedCall (h : ∀ x ∈ params, ¬ Generated x) :
    (passedCall label n params body label' n' rest vs).binders =
      (nameOf "K" n :: body.binders) ++
        ((nameOf "R" n' :: rest.binders) ++ Term.bindersAll vs) := by
  rw [passedCall, Term.binders, Term.bindersAll, Term.binders_passed _ _ _ _ h,
    Term.binders_passed _ _ _ _ (List.forall_mem_nil _)]

/-- The body can be run in the frame of the call. -/
theorem Stage.of_body (h : Stage (passedCall label n params body label' n' rest vs) j w)
    (hparams : ∀ x ∈ params, ¬ Generated x) (hj : w.Rooted j) (hstill : w.Still w₁)
    (us : List Value) :
    Stage body w₁.store.scene.size (w₁.entered j (nameOf "K" n :: params) us) := by
  have hnodup := h.nodup
  rw [binders_passedCall hparams] at hnodup
  refine h.entered hstill hj ?_ ?_ us
  · rw [binders_passedCall hparams]
    exact (List.sublist_cons_self _ _).trans (List.sublist_append_left _ _)
  · intro b hb hmem
    rcases List.mem_cons.mp hmem with rfl | hmem
    · exact (List.nodup_cons.mp hnodup.of_append_left).1 hb
    · exact hparams b hmem (Term.generated_of_mem_binders body hb)

/-- So can the rest, in the frame that binds the value of the call. -/
theorem Stage.of_rest (h : Stage (passedCall label n params body label' n' rest vs) j w)
    (hparams : ∀ x ∈ params, ¬ Generated x) (hj : w.Rooted j) (hstill : w.Still w₁)
    (us : List Value) :
    Stage rest w₁.store.scene.size (w₁.entered j [nameOf "R" n'] us) := by
  have hnodup := h.nodup
  rw [binders_passedCall hparams] at hnodup
  refine h.entered hstill hj ?_ ?_ us
  · rw [binders_passedCall hparams]
    exact (List.sublist_cons_self _ _).trans
      ((List.sublist_append_left _ _).trans (List.sublist_append_right _ _))
  · intro b hb hmem
    cases List.mem_singleton.mp hmem
    exact (List.nodup_cons.mp hnodup.of_append_right.of_append_left).1 hb

/-- The frame of the rest hides nothing. -/
theorem Stage.beyond_rest (h : Stage (passedCall label n params body label' n' rest vs) j w)
    (hparams : ∀ x ∈ params, ¬ Generated x) (hj : w.Rooted j) (hstill : w.Still w₁)
    (us : List Value) :
    Beyond j w w₁.store.scene.size (w₁.entered j [nameOf "R" n'] us) := by
  refine hstill.beyond_entered hj (List.forall_mem_singleton.mpr (h.unseen _ ?_)) us
  rw [binders_passedCall hparams]
  simp

/-- The frame of the call binds the function that takes the rest, and besides it is that of a call
of the literal before the transform. -/
theorem Sees.entered_passed {scope : List Name} {ρ : Valuation} (h : Sees scope ρ j w)
    (hscope : ∀ x ∈ params ++ scope, ¬ Generated x) (n : Nat) (c : Value) (us : List Value) :
    Sees (params ++ scope) (ρ.bindAll params us) w.store.scene.size
        (w.entered j (nameOf "K" n :: params) (c :: us)) ∧
      (w.entered j (nameOf "K" n :: params) (c :: us)).store.scene.lookup w.store.scene.size
        (nameOf "K" n) = some c := by
  have hne : ∀ x ∈ params ++ scope, x ≠ nameOf "K" n := by
    rintro x hx rfl
    exact hscope _ hx (Symbols.generated_nameOf "K" n)
  have hentered := h.entered (nameOf "K" n :: params) (c :: us)
  refine ⟨⟨hentered.rooted, fun x hx => ?_⟩, ?_⟩
  · rw [hentered.lookup x (List.mem_cons_of_mem _ hx), Valuation.bindAll]
    refine congrArg some (Valuation.bindAll_congr (.inl ?_) us)
    rw [Valuation.bind, if_neg (hne x hx)]
  · have hmem : nameOf "K" n ∉ params := fun hmem =>
      hne _ (List.mem_append_left scope hmem) rfl
    rw [hentered.lookup _ List.mem_cons_self, Valuation.bindAll, Valuation.bindAll_of_not_mem hmem,
      Valuation.bind, if_pos rfl]

theorem comes_passedCall {as : List Formula.Residue} {κ : List Value → Except EvalError Value}
    (hj : w.Rooted j) (hvs : List.Forall₂ (fun v a => Stands hosts convention v a j w) vs as)
    (hbody : ∀ w₁ us, w.Still w₁ → Formula.force as = .ok us →
      Comes hosts convention body w₁.store.scene.size (w₁.entered j (nameOf "K" n :: params)
        (.closure ⟨label', none, [nameOf "R" n'], rest⟩ j :: us)) (κ us)) :
    Comes hosts convention (passedCall label n params body label' n' rest vs) j w
      (Formula.force as >>= κ) := by
  have hargs : ∀ w₁, w.Still w₁ → ComesAll hosts convention
      (.function label' none [nameOf "R" n'] rest :: vs) j w₁ (do
        let us ← Formula.force as
        return .closure ⟨label', none, [nameOf "R" n'], rest⟩ j :: us) := by
    intro w₁ hstill
    refine comesAll_cons (comes_literal label' _ rest) fun w₂ hstill' => ?_
    have hstill := hstill.trans hstill'
    exact comesAll_of_stands (hstill.rooted hj) (hvs.imp fun _ _ h => h.beyond (hstill.beyond hj))
  have hresult : (do
      let us ← Formula.force as
      let all ← pure (Value.closure ⟨label', none, [nameOf "R" n'], rest⟩ j :: us)
      κ all.tail) = (Formula.force as >>= κ) := by
    cases Formula.force as <;> rfl
  rw [← hresult, ← bind_assoc]
  refine comes_call (comes_literal label _ body) hargs fun w₁ all hstill hall => ?_
  obtain ⟨us, hus, heq⟩ := bind_eq_ok_iff_exists.mp hall
  cases heq
  exact hbody w₁ us hstill hus

end

namespace Formula

mutual

/-- **The transform of a formula comes to its meaning with calls first**, and hands what is left of
it to its receiver. -/
theorem comes_of_passes (f : Formula) {scope : List Name} {ρ : Valuation}
    (hf : f.usesOnly scope = true) (hscope : ∀ x ∈ scope, ¬ Generated x)
    (hplain : Throughout Plain f.tree) {K : Receiver Nat} {m : Code} (hm : Passes f.tree K m)
    {j : FrameId} {w : World} (hsees : Sees scope ρ j w) (hstage : Stage m j w)
    {κ : Residue → Except EvalError Value}
    (hK : ∀ a v m' j' w', Beyond j w j' w' → Stage m' j' w' → Stands hosts convention v a j' w' →
      K v m' → Comes hosts convention m' j' w' (κ a)) :
    Comes hosts convention m j w (f.late ρ >>= κ) := by
  cases f with
  | int n => exact hK _ _ m j w (.refl hsees.rooted) hstage (stands_int n) hm
  | var x =>
    have hx := hsees.lookup x (List.contains_iff_mem.mp hf)
    exact hK _ _ m j w (.refl hsees.rooted) hstage (stands_var hx) hm
  | negate f =>
    simp only [late, bind_assoc, pure_bind]
    refine comes_of_passes f hf hscope hplain.negate hm hsees hstage ?_
    intro a v m' j' w' hbeyond hstage' hv hm'
    exact hK _ _ m' j' w' hbeyond hstage' hv.negate hm'
  | binary op f g =>
    obtain ⟨hf, hg⟩ := Bool.and_eq_true_iff.mp hf
    simp only [late, bind_assoc, pure_bind]
    refine comes_of_passes f hf hscope hplain.binary.1 hm hsees hstage ?_
    intro a l m₁ j₁ w₁ hbeyond₁ hstage₁ hl hm₁
    refine comes_of_passes g hg hscope hplain.binary.2 hm₁ (hsees.beyond hbeyond₁) hstage₁ ?_
    intro b r m₂ j₂ w₂ hbeyond₂ hstage₂ hr hm₂
    exact hK _ _ m₂ j₂ w₂ (hbeyond₁.trans hbeyond₂) hstage₂ ((hl.beyond hbeyond₂).binary op hr) hm₂
  | call params body args =>
    obtain ⟨hbody, hargs⟩ := Bool.and_eq_true_iff.mp hf
    obtain ⟨hliteral, hplain⟩ := List.forall_mem_cons.mp hplain.call
    have hparams : ∀ x ∈ params, ¬ Generated x := hliteral.self.ordinary
    have hscope' : ∀ x ∈ params ++ scope, ¬ Generated x :=
      List.forall_mem_append.mpr ⟨hparams, hscope⟩
    obtain ⟨label, n, body', hpasses, hm⟩ := hm
    simp only [late, bind_assoc, pure_bind]
    refine comes_of_passesAll args hargs hscope hplain hm hsees hstage ?_
    rintro as vs _ j₁ w₁ hbeyond₁ hstage₁ hvs ⟨_, ⟨label', n', rest, rfl, hrest⟩, rfl⟩
    refine comes_passedCall hbeyond₁.rooted hvs fun w₂ us hstill₂ _ => ?_
    obtain ⟨hsees₂, hret⟩ := ((hsees.beyond hbeyond₁).still hstill₂).entered_passed hscope' n
      (.closure ⟨label', none, [nameOf "R" n'], rest⟩ j₁) us
    refine comes_of_passes body hbody hscope' hliteral.function hpasses hsees₂
      (hstage₁.of_body hparams hbeyond₁.rooted hstill₂ _) ?_
    rintro a v _ j₃ w₃ hbeyond₃ - hv rfl
    refine comes_jump hbeyond₃.rooted (hbeyond₃.lookup _ _ hret) hv fun w₄ u hstill₄ _ => ?_
    -- The value of the call is seen where the rest is run, and all that was seen before is too.
    have hstill : w₁.Still w₄ :=
      hstill₂.trans ((w₂.still_entered _ _ _).trans (hbeyond₃.still.trans hstill₄))
    refine hK (.ok u) (.var (nameOf "R" n')) rest _ _
      (hbeyond₁.trans (hstage₁.beyond_rest hparams hbeyond₁.rooted hstill [u]))
      (hstage₁.of_rest hparams hbeyond₁.rooted hstill [u]) (stands_var ?_) hrest
    rw [w₄.lookup_entered_of_mem j₁ (List.mem_singleton_self _) ρ]
    exact congrArg some (if_pos rfl)
termination_by structural f

theorem comes_of_passesAll (fs : List Formula) {scope : List Name} {ρ : Valuation}
    (hfs : usesOnlyAll scope fs = true) (hscope : ∀ x ∈ scope, ¬ Generated x)
    (hplain : ∀ t ∈ trees fs, Throughout Plain t) {K : List Code → Code → Prop} {m : Code}
    (hm : PassesAll (trees fs) K m) {j : FrameId} {w : World} (hsees : Sees scope ρ j w)
    (hstage : Stage m j w) {κ : List Residue → Except EvalError Value}
    (hK : ∀ as vs m' j' w', Beyond j w j' w' → Stage m' j' w' →
      List.Forall₂ (fun v a => Stands hosts convention v a j' w') vs as → K vs m' →
      Comes hosts convention m' j' w' (κ as)) :
    Comes hosts convention m j w (lateAll fs ρ >>= κ) := by
  cases fs with
  | nil => exact hK [] [] m j w (.refl hsees.rooted) hstage .nil hm
  | cons f fs =>
    obtain ⟨hf, hfs⟩ := Bool.and_eq_true_iff.mp hfs
    obtain ⟨hplainf, hplain⟩ := List.forall_mem_cons.mp hplain
    simp only [lateAll, bind_assoc, pure_bind]
    refine comes_of_passes f hf hscope hplainf hm hsees hstage ?_
    intro a v m₁ j₁ w₁ hbeyond₁ hstage₁ hv hm₁
    refine comes_of_passesAll fs hfs hscope hplain hm₁ (hsees.beyond hbeyond₁) hstage₁ ?_
    intro as vs m₂ j₂ w₂ hbeyond₂ hstage₂ hvs hm₂
    exact hK _ _ m₂ j₂ w₂ (hbeyond₁.trans hbeyond₂) hstage₂ (.cons (hv.beyond hbeyond₂) hvs) hm₂
termination_by structural fs

end

/-! ### Programs that are formulas -/

theorem sees_new (maxDepth : Nat) (convention : Convention) (console : Console) (ρ : Valuation) :
    Sees [] ρ Interpreter.globals (Interpreter.new maxDepth convention console).world :=
  ⟨List.forall_mem_singleton.mpr Nat.one_pos, List.forall_mem_nil _⟩

/-- What comes of a term in an empty frame is what comes of the program. -/
theorem run_of_comes {maxDepth : Nat} {console : Console} {t : Tree} {c : Code} {d : Nat}
    {r : Except EvalError Value} (hcheck : t.check = .ok ()) (hlabel : t.label.run 0 = (c, d))
    (h : Comes (Interpreter.new maxDepth convention console).host convention c Interpreter.globals
      (Interpreter.new maxDepth convention console).world r) :
    ∃ fuel i, (Interpreter.new maxDepth convention console).run fuel t = some (r, i) := by
  obtain ⟨w, -, n, hn⟩ := h
  obtain ⟨fuel, i, hrun, -⟩ := (Interpreter.run_under_iff maxDepth hcheck hlabel).mpr
    ⟨n, hn n (Nat.le_refl n)⟩
  exact ⟨fuel, i, hrun⟩

/-- In an empty frame, a formula comes to its meaning from left to right. -/
theorem run_eager {f : Formula} (hclosed : f.usesOnly [] = true) (hcheck : f.tree.check = .ok ())
    (maxDepth : Nat) (convention : Convention) (console : Console) :
    ∃ fuel i, (Interpreter.new maxDepth convention console).run fuel f.tree =
      some (f.eager Valuation.blank, i) := by
  obtain ⟨c, d, hlabel, hc, -⟩ := f.tree.label_spec 0
  exact run_of_comes hcheck hlabel
    (comes_eager f hclosed hc (sees_new maxDepth convention console .blank))

/-- In an empty frame, the transform of a formula comes to its meaning with calls first. -/
theorem run_deferred {f : Formula} (hclosed : f.usesOnly [] = true) (htame : Tame f.tree) {m : Tree}
    (hm : f.tree.transform = .ok m) (hbinders : m.binders.Nodup) (maxDepth : Nat)
    (convention : Convention) (console : Console) :
    ∃ fuel i, (Interpreter.new maxDepth convention console).run fuel m =
      some (f.deferred Valuation.blank, i) := by
  obtain ⟨c, d, hlabel, rfl, -⟩ := m.label_spec 0
  have htransform : f.tree.transformWith .new id = (.ok c.erase, _) := Prod.ext hm rfl
  have hcheck := (passing_of_transformWith htransform).check
  rw [← f.tree.erase_tree] at htransform
  obtain ⟨-, hpasses⟩ := passes_of_transformWith markable_nat htransform
  rw [Term.binders_erase] at hbinders
  have hstage : Stage c Interpreter.globals (Interpreter.new maxDepth convention console).world :=
    ⟨hbinders, fun _ _ => rfl⟩
  refine run_of_comes hcheck hlabel ?_
  rw [deferred]
  refine comes_of_passes f hclosed (List.forall_mem_nil _) htame.plain hpasses
    (sees_new maxDepth convention console .blank) hstage ?_
  rintro a v _ j' w' hbeyond - hv rfl
  exact hv j' w' (.refl hbeyond.rooted)

/-- **What comes of a formula before and after the transform.** Run in an empty frame, a formula
comes to its meaning from left to right, and its transform comes to its meaning with calls first. So
one of them comes to a value if and only if the other comes to this value. Where no operand of which
something may be left that fails comes before one in which a call is made, they come to the same
error too. -/
theorem outcomes {f : Formula} (hclosed : f.usesOnly [] = true) (htame : Tame f.tree) :
    (∀ maxDepth, ∃ fuel i, (Interpreter.new maxDepth .implicit .empty).run fuel f.tree =
      some (f.eager Valuation.blank, i)) ∧
    (∃ m, f.tree.transform = .ok m ∧ ∀ maxDepth, ∃ fuel i,
      (Interpreter.new maxDepth .explicit .empty).run fuel m =
        some (f.deferred Valuation.blank, i)) ∧
    (∀ v, f.deferred Valuation.blank = .ok v ↔ f.eager Valuation.blank = .ok v) ∧
    (f.prompt = true → f.deferred Valuation.blank = f.eager Valuation.blank) := by
  obtain ⟨m, hm, hbinders⟩ := htame.exists_transform
  refine ⟨fun maxDepth => ?_, ⟨m, hm, fun maxDepth => ?_⟩, fun v => ?_, fun hprompt => ?_⟩
  · exact run_eager hclosed htame.check maxDepth .implicit .empty
  · exact run_deferred hclosed htame hm hbinders maxDepth .explicit .empty
  · exact f.deferred_eq_ok_iff Valuation.blank v
  · exact f.deferred_of_prompt hprompt Valuation.blank

/-- A call that divides by its argument, after an operand of which nothing is left that may fail. -/
def dividing : Formula :=
  .binary .add (.binary .eq (.int 7) (.call ["x"] (.var "x") [.int 7]))
    (.call ["d", "n"] (.binary .div (.var "n") (.var "d")) [.int 0, .int 3])

theorem outcomes_dividing :
    dividing.usesOnly [] = true ∧ Tame dividing.tree ∧ dividing.prompt = true ∧
      (∃ fuel i, (Interpreter.new 2 .implicit .empty).run fuel dividing.tree =
        some (.error .zeroDivision, i)) ∧
      ∃ m, dividing.tree.transform = .ok m ∧ ∃ fuel i,
        (Interpreter.new 3 .explicit .empty).run fuel m = some (.error .zeroDivision, i) := by
  have hclosed : dividing.usesOnly [] = true := by decide
  have htame : Tame dividing.tree := ⟨by decide +kernel, rfl⟩
  have hprompt : dividing.prompt = true := by decide
  have heager : dividing.eager Valuation.blank = .error .zeroDivision := rfl
  obtain ⟨hdirect, ⟨m, hm, htransformed⟩, -, hsame⟩ := outcomes hclosed htame
  rw [hsame hprompt, heager] at htransformed
  rw [heager] at hdirect
  exact ⟨hclosed, htame, hprompt, hdirect 2, m, hm, htransformed 3⟩

/-- A division by zero, and after it a call that adds a truth value to a number. -/
def overtakenError : Formula :=
  .binary .add (.binary .div (.int 1) (.int 0))
    (.call ["x"] (.binary .add (.var "x") (.binary .lt (.int 1) (.int 1))) [.int 1])

/-- **Errors need not survive the transform**: the division waits while the call is made, and the
call fails first. -/
theorem overtakenError_not_preserved :
    overtakenError.usesOnly [] = true ∧ Tame overtakenError.tree ∧
      (∃ i, (Interpreter.new 200 .implicit .empty).run 100 overtakenError.tree =
        some (.error .zeroDivision, i)) ∧
      ∃ m, overtakenError.tree.transform = .ok m ∧
        ∃ i, (Interpreter.new 200 .explicit .empty).run 100 m =
          some (.error (.notANumber "false"), i) :=
  ⟨by decide, ⟨by decide +kernel, rfl⟩, ⟨_, rfl⟩, _, rfl, _, rfl⟩

end Formula

end LetLambda
