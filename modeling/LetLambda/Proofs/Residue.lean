import LetLambda.Proofs.Giving
import LetLambda.Proofs.Passage

/-!
# What is left to evaluate

A transform puts off simple terms: a variable, a literal, an operator on such terms, an assignment
of one of them. The first run has evaluated them long before the second one comes to it. Until
then functions and frames of the first run have no counterpart (`Pending`), and assignments have
been made in it that the second run still owes (`Update`).

`Waits` says of terms that, evaluated at any later moment at which the variables that they read are
what they were, they give the values that the first run has found, and nothing is owed any more.
-/

namespace LetLambda

open Symbols (Generated)
open Term (marksAll bindersAll)

/-- Functions and frames of the first run that have no counterpart yet. -/
structure Pending where
  /-- The functions, each known by its literal and its frame. -/
  funs : Nat × FrameId → Prop
  /-- The frames. -/
  frames : FrameId → Prop

namespace Pending

/-- Nothing is pending. -/
def nothing : Pending := ⟨fun _ => False, fun _ => False⟩

/-- What is pending on either side. -/
def both (own own' : Pending) : Pending :=
  ⟨fun p => own.funs p ∨ own'.funs p, fun f => own.frames f ∨ own'.frames f⟩

/-- A function that a literal without name has made. -/
def function (label : Nat) (i : FrameId) : Pending := ⟨fun p => p = (label, i), fun _ => False⟩

/-- A function that a literal with a name has made, with its frame. -/
def named (label : Nat) (f : FrameId) : Pending := ⟨fun p => p = (label, f), fun g => g = f⟩

/-- What is pending has indeed no counterpart. -/
structure Free (own : Pending) (P : Bond) : Prop where
  funs : ∀ p, own.funs p → ∀ q, ¬ P.funs p q
  frames : ∀ f, own.frames f → ∀ g, ¬ P.frames f g

/-- Nothing is pending twice. -/
structure Apart (own own' : Pending) : Prop where
  funs : ∀ p, own.funs p → ¬ own'.funs p
  frames : ∀ f, own.frames f → ¬ own'.frames f

variable {own own' : Pending} {P Q : Bond}

theorem Free.left (h : (own.both own').Free P) : own.Free P :=
  ⟨fun p hp => h.funs p (.inl hp), fun f hf => h.frames f (.inl hf)⟩

theorem Free.right (h : (own.both own').Free P) : own'.Free P :=
  ⟨fun p hp => h.funs p (.inr hp), fun f hf => h.frames f (.inr hf)⟩

theorem Free.both (h : own.Free P) (h' : own'.Free P) : (own.both own').Free P :=
  ⟨fun p hp => hp.elim (h.funs p) (h'.funs p), fun f hf => hf.elim (h.frames f) (h'.frames f)⟩

theorem Free.adds (h : own'.Free P) (hQ : P.Adds Q own.funs own.frames) (hd : own.Apart own') :
    own'.Free Q := by
  refine ⟨fun p hp q e => ?_, fun f hf g e => ?_⟩
  · rcases hQ.funs e with e | e
    · exact h.funs p hp q e
    · exact hd.funs p e hp
  · rcases hQ.frames e with e | e
    · exact h.frames f hf g e
    · exact hd.frames f e hf

end Pending

variable (hosts : Hosts) (names : List Name)

/-- After evaluating the terms `ts` in frame `j` of the second run, the bond `P` has become `Q`. -/
structure Evaluated (P : Bond) (W : Scene) (j : FrameId) (ts : List Code) (vs : List Value)
    (us : List Update) (own : Pending) (vs' : List Value) (Q : Bond) : Prop where
  gives : GivesAll hosts ts j P.world vs' Q.world
  values : List.Forall₂ (Rel names Q) vs vs'
  later : P.Later Q
  agree : Agree names Q (W.updates us)
  adds : P.Adds Q own.funs own.frames
  marked : P.Marked Q (marksAll ts) j
  console : Q.world.console = P.world.console

/-- The names that have to be kept until the terms `ts` are evaluated. -/
def Kept (ts : List Code) (own : Pending) (g : FrameId) (x : Name) : Prop :=
  (¬ Generated x ∧ ∃ t ∈ ts, x ∈ t.erase.reads) ∨ own.frames g

/-- The terms `ts` give the values `vs` whenever they are evaluated, in any environment that
corresponds to `i` and follows `j`. The updates `us` are made by that. -/
def Waits (i : FrameId) (P : Bond) (j : FrameId) (V : Scene) (ts : List Code) (vs : List Value)
    (us : List Update) (own : Pending) : Prop :=
  ∀ Q k W, P.Later Q → P.Follows j Q k → Q.envs i k → Agree names Q W →
    V.Grows (Kept ts own) W → own.Free Q → Q.Ready ts k →
    ∃ vs' R, Evaluated hosts names Q W k ts vs us own vs' R

variable {hosts names} {P Q R : Bond} {V W : Scene} {i j k f g : FrameId} {t a : Code}
  {ts as : List Code} {v r : Value} {vs : List Value} {us us' : List Update} {own own' : Pending}
  {x z : Name}

namespace Waits

theorem later (h : Waits hosts names i P j V ts vs us own) (hL : P.Later Q)
    (hF : P.Follows j Q k) (hV : V.Grows (Kept ts own) W) :
    Waits hosts names i Q k W ts vs us own :=
  fun R l X hL' hF' henv hA hW hfree hready =>
    h R l X (hL.trans hL') (hF.trans hF') henv hA (hV.trans hW) hfree hready

theorem nil : Waits hosts names i P j V [] [] [] .nothing := by
  intro Q k W _ _ _ hA _ _ _
  exact ⟨[], Q, ⟨rfl, rfl⟩, .nil, .refl Q, hA, .refl Q _ _, .inl, rfl⟩

/-- One term after another. -/
theorem cons (ht : Waits hosts names i P j V [t] [v] us own)
    (hts : Waits hosts names i P j (V.updates us) ts vs us' own') (hd : own.Apart own') :
    Waits hosts names i P j V (t :: ts) (v :: vs) (us ++ us') (own.both own') := by
  intro Q k W hL hF henv hA hV hfree hready
  have hready₁ : Q.Ready [t] k := hready.sublist (by simp)
  have hready₂ : Q.Ready ts k := hready.sublist (by simp)
  have hV₁ : V.Grows (Kept [t] own) W := by
    refine hV.mono fun f _ x hx => hx.imp (fun ⟨hx, u, hu, hr⟩ => ⟨hx, u, ?_, hr⟩) .inl
    exact List.mem_singleton.mp hu ▸ List.mem_cons_self
  have hV₂ : V.Grows (Kept ts own') W :=
    hV.mono fun f _ x hx =>
      hx.imp (fun ⟨hx, u, hu, hr⟩ => ⟨hx, u, List.mem_cons_of_mem t hu, hr⟩) .inr
  obtain ⟨vs₁, Q₁, h₁⟩ := ht Q k W hL hF henv hA hV₁ hfree.left hready₁
  have hready₂ : Q₁.Ready ts k :=
    hready₂.later hA henv h₁.later h₁.marked (Term.disjoint_marksAll hready.marks)
  obtain ⟨vs₂, Q₂, h₂⟩ := hts Q₁ k (W.updates us) (hL.trans h₁.later)
    (hF.trans (h₁.later.follows hA henv)) (h₁.later.envs henv) h₁.agree (hV₂.updates us)
    (hfree.right.adds h₁.adds hd) hready₂
  obtain ⟨v', rfl, hgives⟩ := givesAll_singleton.mp h₁.gives
  refine ⟨v' :: vs₂, Q₂, ⟨v', vs₂, Q₁.world, rfl, hgives, h₂.gives⟩, ?_, h₁.later.trans h₂.later,
    ?_, ⟨fun e => ?_, fun e => ?_⟩, fun e => ?_, h₂.console.trans h₁.console⟩
  · cases h₁.values with
    | cons hv _ => exact .cons (hv.mono h₁.agree h₂.later) h₂.values
  · rw [Scene.updates_append]
    exact h₂.agree
  · rcases h₂.adds.funs e with e | e
    · exact (h₁.adds.funs e).imp_right .inl
    · exact .inr (.inr e)
  · rcases h₂.adds.frames e with e | e
    · exact (h₁.adds.frames e).imp_right .inl
    · exact .inr (.inr e)
  · rcases h₂.marked e with e | ⟨hk, e⟩ | e
    · refine (h₁.marked e).imp_right (Or.imp_left fun ⟨hk, e⟩ => ⟨hk, ?_⟩)
      exact List.mem_append_left _ (by simpa [marksAll] using e)
    · exact .inr (.inl ⟨hk, List.mem_append_right _ e⟩)
    · exact .inr (.inr (Nat.le_trans h₁.later.scene.size_le e))

/-- A term that does something with the values of others. -/
theorem map (h : Waits hosts names i P j V ts vs us own) (hm : marksAll ts = t.marks)
    (hb : bindersAll ts = t.binders) (hr : ∀ u ∈ ts, u.erase.reads ⊆ t.erase.reads)
    (ht : ∀ {Q X k w vs' w'}, Agree names Q X → List.Forall₂ (Rel names Q) vs vs' →
      GivesAll hosts ts k w vs' w' → ∃ r', Gives hosts t k w r' w' ∧ Rel names Q r r') :
    Waits hosts names i P j V [t] [r] us own := by
  intro Q k W hL hF henv hA hV hfree hready
  have hm' : marksAll [t] = marksAll ts := by simp [marksAll, hm]
  have hb' : bindersAll [t] = bindersAll ts := by simp [bindersAll, hb]
  have hV' : V.Grows (Kept ts own) W :=
    hV.mono fun f _ x => Or.imp_left fun ⟨hx, u, hu, hxu⟩ =>
      ⟨hx, t, List.mem_singleton_self t, hr u hu hxu⟩
  obtain ⟨vs', R, h⟩ := h Q k W hL hF henv hA hV' hfree
    (hready.sub (hm' ▸ .refl _) (hb' ▸ .refl _))
  obtain ⟨r', hgives, hrel⟩ := ht h.agree h.values h.gives
  exact ⟨[r'], R, givesAll_singleton.mpr ⟨r', rfl, hgives⟩, .cons hrel .nil, h.later, h.agree,
    h.adds, hm' ▸ h.marked, h.console⟩

/-- A term that has a value of its own. -/
theorem constant (hm : t.marks = []) (ht : ∀ k w, Gives hosts t k w v w)
    (hv : ∀ Q, Rel names Q v v) : Waits hosts names i P j V [t] [v] [] .nothing := by
  intro Q k W _ _ _ hA _ _ _
  have hm' : marksAll [t] = [] := by simp [marksAll, hm]
  exact ⟨[v], Q, givesAll_singleton.mpr ⟨v, rfl, ht k Q.world⟩, .cons (hv Q) .nil, .refl Q, hA,
    .refl Q _ _, .inl, rfl⟩

/-- A variable of the first run. -/
theorem var (hx : ¬ Generated x) (hi : ∀ g ∈ V.chain i, g < V.size) (hv : V.lookup i x = some v) :
    Waits hosts names i P j V [.var x] [v] [] .nothing := by
  intro Q k W _ _ henv hA hV _ _
  have hW : W.lookup i x = some v := by
    rw [hV.lookup hi fun g => .inl ⟨hx, .var x, List.mem_singleton_self _, ?_⟩, hv]
    exact List.mem_singleton_self x
  obtain ⟨v', hv', hrel⟩ := hA.lookup henv hx hW
  exact ⟨[v'], Q, givesAll_singleton.mpr ⟨v', rfl, gives_var hv'⟩, .cons hrel .nil, .refl Q, hA,
    .refl Q _ _, .inl, rfl⟩

/-- A generated variable. -/
theorem generated {X : Scene} {v' : Value} (hA : Agree names P X) (hz : Generated z)
    (hs : P.scene.Sees j z v') (hv : Rel names P v v') :
    Waits hosts names i P j V [.var z] [v] [] .nothing := by
  intro Q k W hL hF _ hQ _ _ _
  obtain ⟨g, hg, -, hslot⟩ := hF z v' hz hs
  have hlookup : Q.scene.lookup k z = some v' := by
    rw [Scene.lookup, hg]
    exact hslot
  exact ⟨[v'], Q, givesAll_singleton.mpr ⟨v', rfl, gives_var hlookup⟩, .cons (hv.mono hA hL) .nil,
    .refl Q, hQ, .refl Q _ _, .inl, rfl⟩

/-- An assignment. -/
theorem assign (h : Waits hosts names i P j V [t] [v] us own) (hx : ¬ Generated x)
    (hi : ∀ g ∈ V.chain i, g < V.size) (hf : (V.updates us).resolve i x = some f) :
    Waits hosts names i P j V [.assign (.var x) t] [v] (us ++ [⟨f, x, v⟩]) own := by
  intro Q k W hL hF henv hA hV hfree hready
  have hV' : V.Grows (Kept [t] own) W := by
    refine hV.mono fun g _ y => Or.imp_left fun ⟨hy, u, hu, hyu⟩ =>
      ⟨hy, _, List.mem_singleton_self _, Term.reads_subset ?_ hyu⟩
    cases List.mem_singleton.mp hu
    simp [Term.surface, Term.erase, Term.parts]
  obtain ⟨vs', R, h⟩ := h Q k W hL hF henv hA hV' hfree (hready.sub (by simp [marksAll, Term.marks])
    (by simp [bindersAll, Term.binders]))
  obtain ⟨v', rfl, hgives⟩ := givesAll_singleton.mp h.gives
  have hrel : Rel names R v v' := by
    cases h.values with
    | cons hv _ => exact hv
  have hf' : (W.updates us).resolve i x = some f := by
    rw [(hV.updates us).resolve (by simpa using hi), hf]
  obtain ⟨g, hg, hfg⟩ := h.agree.resolve (h.later.envs henv) hx hf'
  obtain ⟨store, hset, hscene⟩ := Store.set?_eq_some hg v'
  obtain ⟨hL', hA'⟩ : R.Later (R.become { R.world with store }) ∧
      Agree names (R.become { R.world with store }) ((W.updates us).set f x v) :=
    h.agree.assign hfg hx (Scene.isSome_of_resolve hf') hrel hscene
  refine ⟨[v'], R.become { R.world with store }, givesAll_singleton.mpr ⟨v', rfl, gives_assign hgives hset⟩,
    .cons (hrel.mono h.agree hL') .nil, h.later.trans hL', ?_, ⟨h.adds.funs, h.adds.frames⟩, ?_,
    h.console⟩
  · rw [Scene.updates_append]
    exact hA'
  · intro p q e
    simpa [marksAll, Term.marks] using h.marked e

end Waits

/-! ### Function literals -/

/-- The literal of a function. -/
def Lambda.literal (lam : Lambda) : Code := .function lam.label lam.name? lam.params lam.body

theorem Lambda.label_mem_marks (lam : Lambda) : lam.label ∈ marksAll [lam.literal] :=
  List.mem_cons_self

variable (hosts) in
theorem Lambda.gives_literal (lam : Lambda) (j : FrameId) (w : World) :
    Gives hosts lam.literal j w (Direct.close w lam j).1 (Direct.close w lam j).2 :=
  gives_function lam.label lam.name? lam.params lam.body

namespace Literal

variable {lam lam' : Lambda} {ret : Name}

theorem mem_binders {b : Name} (h : Literal names lam lam' ret)
    (hb : b ∈ ret :: lam'.body.binders) : b ∈ bindersAll [lam'.literal] := by
  simp only [bindersAll, Lambda.literal, Term.binders, List.append_nil, List.mem_append, h.params]
  rcases List.mem_cons.mp hb with rfl | hb
  · exact .inl (List.mem_filter.mpr ⟨List.mem_cons_self, decide_eq_true h.generated⟩)
  · exact .inr hb

end Literal

/-- Where a literal is ready to be evaluated, its parts do not share what they should not. -/
theorem Counterpart.literal {lam lam' : Lambda} {ret : Name} (h : Counterpart names lam lam' ret)
    (hready : P.Ready [lam'.literal] j) : Literal names lam lam' ret := by
  have hm : (lam'.label :: lam'.body.marks).Nodup := by
    simpa [marksAll, Lambda.literal, Term.marks] using hready.marks
  have hparams : lam.params.filter (fun x => decide (Generated x)) = [] :=
    List.filter_eq_nil_iff.mpr fun x hx => by simpa using h.ordinary x hx
  refine ⟨h, hm.of_cons, ?_⟩
  simpa [bindersAll, Lambda.literal, Term.binders, h.params, h.generated, hparams]
    using hready.binders

namespace Waits

variable {lam lam' : Lambda} {ret : Name}

/-- A function without a name is closed over the frame in which its literal is evaluated. -/
theorem anonymous (hlit : Counterpart names lam lam' ret) (hname : lam.name? = none) :
    Waits hosts names i P j V [lam'.literal] [.closure lam i] [] (.function lam.label i) := by
  intro Q k W _ _ henv hA _ hfree hready
  have hlit := hlit.literal hready
  have hgives : Gives hosts lam'.literal k Q.world (.closure lam' k) Q.world := by
    have hg := lam'.gives_literal hosts k Q.world
    rwa [Direct.close, hlit.name.trans hname] at hg
  have hA' : Agree names (Q.meet (lam.label, i) (lam'.label, k)) W :=
    hA.meet henv (hfree.funs _ rfl) (hready.unused _ lam'.label_mem_marks)
  refine ⟨[.closure lam' k], Q.meet (lam.label, i) (lam'.label, k),
    givesAll_singleton.mpr ⟨_, rfl, hgives⟩, .cons ?_ .nil, Bond.later_meet Q _ _, hA',
    ⟨Or.imp_right And.left, .inl⟩, ?_, rfl⟩
  · exact .closure hlit (.inr ⟨rfl, rfl⟩) fun b hb => hready.unbound b (hlit.mem_binders hb)
  · rintro p q (e | ⟨-, rfl⟩)
    · exact .inl e
    · exact .inr (.inl ⟨rfl, lam'.label_mem_marks⟩)

/-- A function with a name is closed over a frame of its own. -/
theorem named (hlit : Counterpart names lam lam' ret) (hname : lam.name? = some x)
    (hx : ¬ Generated x) (hi : i < V.size) (hf : f < V.size) (hchain : V.chain f = f :: V.chain i)
    (hslot : ∀ y, V.slot f y = if y = x then some (.closure lam f) else none) :
    Waits hosts names i P j V [lam'.literal] [.closure lam f] [] (.named lam.label f) := by
  intro Q k W _ _ henv hA hV hfree hready
  have hlit := hlit.literal hready
  have hname' : lam'.name? = some x := hlit.name.trans hname
  obtain ⟨world, hworld⟩ : ∃ world, world =
    (Direct.enter Q.world k fun store frame => store.defineSelf frame lam').2 := ⟨_, rfl⟩
  have hscene : world.store.scene =
      (Q.scene.push k).set Q.scene.size x (.closure lam' Q.scene.size) :=
    hworld ▸ Direct.enter_defineSelf hname'
  have henters : Q.scene.Enters k world.store.scene :=
    hscene ▸ (Scene.enters_push _ k).set x _
  have hgives : Gives hosts lam'.literal k Q.world (.closure lam' Q.scene.size) world := by
    have hg := lam'.gives_literal hosts k Q.world
    rw [Direct.close, hname', ← hworld] at hg
    exact hg
  have hnew (y : Name) (hy : y ≠ x) : world.store.scene.slot Q.scene.size y = none := by
    rw [hscene, Scene.set_slot_of_name_ne hy]
    exact Store.scene_blank Q.world.store _ y (Nat.le_refl _)
  have hrel : Rel names (Q.pair f (fun a b => a = lam.label ∧ b = lam'.label) world)
      (.closure lam f) (.closure lam' Q.scene.size) := by
    refine .closure hlit (.inr ⟨rfl, rfl, rfl, rfl⟩) fun b hb g hg hg0 => ?_
    have hbx : b ≠ x := fun e => hx (e ▸ hlit.generated_of_mem hb)
    rw [show Bond.scene _ = world.store.scene from rfl, henters.chain] at hg
    rcases List.mem_cons.mp hg with rfl | hg
    · exact hnew b hbx
    · refine (henters.slot g (Nat.ne_of_lt ((hA.envs_lt henv).2 g hg)) b).trans ?_
      exact hready.unbound b (hlit.mem_binders hb) g hg hg0
  have hA' : Agree names (Q.pair f (fun a b => a = lam.label ∧ b = lam'.label) world) W := by
    refine hA.pair henv henters (Nat.lt_of_lt_of_le hf hV.size_le) (hfree.frames f rfl) ?_
      (fun e e' => e.2.trans e'.2.symm) (fun e e' => e.1.trans e'.1.symm) fun y _ => ?_
    · rw [hV.chain hf, hV.chain hi, hchain]
    · rw [hV.slot f hf y (.inr rfl), hslot]
      by_cases hy : y = x
      · subst hy
        rw [if_pos rfl, hscene, Scene.set_slot_self]
        exact .some hrel
      · rw [if_neg hy, hnew y hy]
        exact .none
  refine ⟨[.closure lam' Q.scene.size], _, givesAll_singleton.mpr ⟨_, rfl, hgives⟩,
    .cons hrel .nil, Bond.later_pair henters, hA', ⟨?_, ?_⟩, ?_, hworld ▸ rfl⟩
  · rintro p q (e | ⟨hp, -, hl, -⟩)
    · exact .inl e
    · exact .inr (Prod.ext hl hp)
  · rintro a b (e | ⟨rfl, -⟩)
    · exact .inl e
    · exact .inr rfl
  · rintro p q (e | ⟨-, hq, -⟩)
    · exact .inl e
    · exact .inr (.inr (Nat.le_of_eq hq.symm))

end Waits

end LetLambda
