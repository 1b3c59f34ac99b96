import LetLambda.Proofs.Bond
import Mathlib.Data.List.Flatten
import Mathlib.Data.List.Nodup

/-!
# From one moment to a later one

What happens between two moments at which two runs agree is a `Passage`: the bond has grown, the
first run has changed only names that are assigned somewhere, and only in frames that correspond to
something, and what has found a counterpart was made by the terms that were evaluated.

Two kinds of frames are entered on the way. A continuation enters a frame of which the first run
knows nothing (`enter_aside`); a function or a `let` enters a frame in both runs (`enter_pair`). In
both cases a generated name comes into sight and none goes out of it.
-/

namespace LetLambda

open Symbols (Generated)
open Term (marksAll bindersAll)

variable {names : List Name} {P Q R : Bond} {V W X : Scene} {i j k f g : FrameId} {x z : Name}
  {v v' ret : Value} {ts us : List Code}

/-! ### Passages -/

/-- The functions that literals of `marks` make in frame `i`, and those in frames that have come in
while there were between `s` and `s'` of them. -/
def Ground (i : FrameId) (marks : List Nat) (s s' : Nat) (p : Nat × FrameId) : Prop :=
  (p.2 = i ∧ p.1 ∈ marks) ∨ (s ≤ p.2 ∧ p.2 < s')

/-- Literals of `marks` have been evaluated in frame `i`, and functions called unless `pure`. -/
structure Passage (names : List Name) (i : FrameId) (marks : List Nat) (pure : Bool)
    (P : Bond) (V : Scene) (Q : Bond) (W : Scene) : Prop where
  later : P.Later Q
  agree : Agree names Q W
  grows : V.Grows (fun g x => x ∉ names ∨ ∀ g', ¬ Q.frames g g') W
  still : pure = true → V.Grows (fun _ _ => True) W
  adds : P.Adds Q (Ground i marks V.size W.size) fun f => V.size ≤ f ∧ f < W.size

theorem Ground.mono {marks marks' : List Nat} {s s' t t' : Nat} {p : Nat × FrameId}
    (h : Ground i marks s s' p) (hm : marks ⊆ marks') (hs : t ≤ s) (hs' : s' ≤ t') :
    Ground i marks' t t' p := by
  rcases h with ⟨hi, hp⟩ | ⟨h, h'⟩
  · exact .inl ⟨hi, hm hp⟩
  · exact .inr ⟨Nat.le_trans hs h, Nat.lt_of_lt_of_le h' hs'⟩

theorem Bond.Adds.refl (P : Bond) (funs : Nat × FrameId → Prop) (frames : FrameId → Prop) :
    P.Adds P funs frames := ⟨.inl, .inl⟩

namespace Passage

variable {marks marks' : List Nat} {pure pure' : Bool}

theorem refl (hA : Agree names P V) : Passage names i marks pure P V P V :=
  ⟨.refl P, hA, .refl _ _, fun _ => .refl _ _, .refl P _ _⟩

theorem widen (h : Passage names i marks pure P V Q W) (hm : marks ⊆ marks')
    (hp : pure' = true → pure = true) : Passage names i marks' pure' P V Q W :=
  ⟨h.later, h.agree, h.grows, fun e => h.still (hp e),
    ⟨fun e => (h.adds.funs e).imp_right fun e => e.mono hm (Nat.le_refl _) (Nat.le_refl _),
      h.adds.frames⟩⟩

/-- One passage after another, of which the second one may take place in another frame. -/
theorem trans_of (h : Passage names i marks pure P V Q W)
    (h' : Passage names k marks' pure' Q W R X)
    (hG : ∀ p, Ground k marks' W.size X.size p → Ground i marks V.size X.size p)
    (hp : pure = true → pure' = true) : Passage names i marks pure P V R X where
  later := h.later.trans h'.later
  agree := h'.agree
  grows := by
    refine (h.grows.mono ?_).trans h'.grows
    rintro f - x (hx | hf)
    · exact .inl hx
    · exact .inr fun g hg => hf g (h'.later.frames hg)
  still e := (h.still e).trans (h'.still (hp e))
  adds := by
    have hWX := h'.grows.size_le
    constructor
    · intro p q e
      rcases h'.adds.funs e with e | e
      · exact (h.adds.funs e).imp_right fun e => e.mono (List.Subset.refl _) (Nat.le_refl _) hWX
      · exact .inr (hG p e)
    · intro f g e
      rcases h'.adds.frames e with e | ⟨e, e'⟩
      · exact (h.adds.frames e).imp_right fun e => ⟨e.1, Nat.lt_of_lt_of_le e.2 hWX⟩
      · exact .inr ⟨Nat.le_trans h.grows.size_le e, e'⟩

theorem trans (h : Passage names i marks pure P V Q W) (h' : Passage names i marks pure Q W R X) :
    Passage names i marks pure P V R X :=
  h.trans_of h' (fun _ e => e.mono (List.Subset.refl _) h.grows.size_le (Nat.le_refl _)) id

/-- The second passage takes place in a frame that has come in during the first one. -/
theorem trans_inner (h : Passage names i marks pure P V Q W)
    (h' : Passage names f marks' pure' Q W R X) (hf : V.size ≤ f ∧ f < W.size)
    (hp : pure = true → pure' = true) : Passage names i marks pure P V R X := by
  refine h.trans_of h' (fun p e => .inr ?_) hp
  rcases e with ⟨rfl, -⟩ | ⟨e, e'⟩
  · exact ⟨hf.1, Nat.lt_of_lt_of_le hf.2 h'.grows.size_le⟩
  · exact ⟨Nat.le_trans h.grows.size_le e, e'⟩

/-- In the second passage, no literal is evaluated but in frames that have come in. -/
theorem trans_call (h : Passage names i marks pure P V Q W)
    (h' : Passage names k [] pure' Q W R X) (hp : pure = true → pure' = true) :
    Passage names i marks pure P V R X := by
  refine h.trans_of h' (fun p e => .inr ?_) hp
  rcases e with ⟨-, e⟩ | ⟨e, e'⟩
  · cases e
  · exact ⟨Nat.le_trans h.grows.size_le e, e'⟩

/-- Literals that have not been evaluated in frame `i` have made no functions there. -/
theorem fresh (h : Passage names i marks pure P V Q W) (hi : i < V.size)
    (hP : ∀ l ∈ marks', ∀ q, ¬ P.funs (l, i) q) (hd : marks.Disjoint marks') :
    ∀ l ∈ marks', ∀ q, ¬ Q.funs (l, i) q := by
  intro l hl q e
  rcases h.adds.funs e with e | ⟨-, e⟩ | ⟨e, -⟩
  · exact hP l hl q e
  · exact hd e hl
  · exact Nat.lt_irrefl _ (Nat.lt_of_lt_of_le hi e)

/-- Frames of the first run that correspond to nothing have come in. -/
theorem of_grow (hA : Agree names P V) (h : V.Grows (fun _ _ => True) W) (hW : W.Blank) :
    Passage names i marks pure P V P W :=
  ⟨.refl P, hA.grow h hW, h.mono fun _ _ _ _ => trivial, fun _ => h, .refl P _ _⟩

end Passage

/-! ### Terms that are about to be evaluated -/

theorem Term.disjoint_marksAll {t : Code} (h : (marksAll (t :: ts)).Nodup) :
    (marksAll [t]).Disjoint (marksAll ts) := by
  have h : (t.marks ++ marksAll ts).Nodup := h
  simpa [marksAll] using List.disjoint_of_nodup_append h

namespace Bond.Ready

theorem sub (h : P.Ready ts j) (hm : (marksAll us).Sublist (marksAll ts))
    (hb : (bindersAll us).Sublist (bindersAll ts)) : P.Ready us j :=
  ⟨h.marks.sublist hm, h.binders.sublist hb, fun l hl => h.unused l (hm.subset hl),
    fun b hl => h.unbound b (hb.subset hl)⟩

theorem sublist (h : P.Ready ts j) (hsub : us.Sublist ts) : P.Ready us j := by
  refine h.sub ?_ ?_
  · rw [Term.marksAll_eq_flatMap, Term.marksAll_eq_flatMap]
    exact hsub.flatMap _
  · rw [Term.bindersAll_eq_flatMap, Term.bindersAll_eq_flatMap]
    exact hsub.flatMap _

theorem seq (h : P.Ready [.seq ts] j) : P.Ready ts j :=
  h.sub (by simp [marksAll, Term.marks]) (by simp [bindersAll, Term.binders])

theorem conditional {test consequent alternative : Code}
    (h : P.Ready [.conditional test consequent (some alternative)] j) :
    P.Ready [test, consequent, alternative] j :=
  h.sub (by simp [marksAll, Term.marks]) (by simp [bindersAll, Term.binders])

theorem call {callee : Code} (h : P.Ready [.call callee ts] j) : P.Ready (callee :: ts) j :=
  h.sub (by simp [marksAll, Term.marks]) (by simp [bindersAll, Term.binders])

/-- Terms stay ready while others are evaluated in the same frame. -/
theorem later (h : P.Ready ts j) (hA : Agree names P V) (hij : P.envs i j) (hL : P.Later Q)
    {marks : List Nat} (hQ : P.Marked Q marks j) (hd : marks.Disjoint (marksAll ts)) :
    Q.Ready ts j := by
  refine ⟨h.marks, h.binders, fun l hl p e => ?_, fun b hb => ?_⟩
  · rcases hQ e with e | ⟨-, e⟩ | e
    · exact h.unused l hl p e
    · exact hd e hl
    · exact absurd (hA.env_lt hij).2 (Nat.not_lt.mpr e)
  · have hz := Term.generated_of_mem_bindersAll ts hb
    exact hL.unbound (hA.envs_lt hij).2 hz (h.unbound b hb)

end Bond.Ready

/-! ### Entering frames -/

/-- From frame `j`, the second run has entered a frame that binds the generated name `z`, and which
corresponds to frame `i` as an environment. -/
structure Entered (names : List Name) (P : Bond) (j : FrameId) (z : Name) (ret : Value) (Q : Bond)
    (W : Scene) (i : FrameId) : Prop where
  later : P.Later Q
  agree : Agree names Q W
  env : Q.envs i P.scene.size
  follows : P.Follows j Q P.scene.size
  sees : Q.scene.Sees P.scene.size z ret
  ready : ∀ ts, (marksAll ts).Nodup → (z :: bindersAll ts).Nodup →
    (∀ b ∈ bindersAll ts, P.scene.Unbound j b) → Q.Ready ts P.scene.size

/-- Where the new frame binds no generated name but `z`, and `z` was not in sight, nothing goes out
of sight. -/
theorem Entered.of_enters (hP : Agree names P V) (hQ : Agree names Q W) (hL : P.Later Q)
    (hfuns : ∀ {p q}, Q.funs p q → P.funs p q) (henv : Q.envs i P.scene.size)
    (hj : ∀ g ∈ P.scene.chain j, g < P.scene.size) (h : P.scene.Enters j Q.scene)
    (hfree : P.scene.Unbound j z) (hz : Q.scene.slot P.scene.size z = some ret)
    (hother : ∀ y, Generated y → y ≠ z → Q.scene.slot P.scene.size y = none) :
    Entered names P j z ret Q W i := by
  have hpos : P.scene.size ≠ 0 := Nat.ne_of_gt hP.size_pos
  have hslot (g : FrameId) (hg : g ∈ P.scene.chain j) (y : Name) :
      Q.scene.slot g y = P.scene.slot g y := h.slot g (Nat.ne_of_lt (hj g hg)) y
  refine ⟨hL, hQ, henv, fun y v hy hs => ?_, ?_, fun ts hm hb hu => ⟨hm, hb.of_cons, ?_, ?_⟩⟩
  · obtain ⟨g, hg, hg0, hv⟩ := hs
    have hmem := Scene.mem_chain_of_resolve hg
    have hyz : y ≠ z := by
      rintro rfl
      rw [hfree g hmem hg0] at hv
      cases hv
    refine ⟨g, ?_, hg0, (hslot g hmem y).trans hv⟩
    rw [Scene.resolve, h.chain, List.find?_cons, hother y hy hyz, ← hg]
    exact List.find?_congr fun g hg => by rw [hslot g hg]
  · refine ⟨P.scene.size, ?_, hpos, hz⟩
    rw [Scene.resolve, h.chain, List.find?_cons, hz]
    rfl
  · intro l _ p e
    exact Nat.lt_irrefl _ (hP.funs_lt (hfuns e)).2
  · intro b hb' g hg hg0
    rw [h.chain] at hg
    rcases List.mem_cons.mp hg with rfl | hg
    · refine hother b (Term.generated_of_mem_bindersAll ts hb') ?_
      rintro rfl
      exact (List.nodup_cons.mp hb).1 hb'
    · rw [hslot g hg]
      exact hu b hb' g hg hg0

/-- A continuation has been applied: its parameter is bound in a frame of its own. -/
def Bond.enterAside (P : Bond) (i j : FrameId) (z : Name) (v : Value) : Bond :=
  P.aside i (Direct.enter P.world j fun store frame => store.defineAll frame [z] [v]).2

theorem enter_aside (hA : Agree names P V) (hij : P.envs i j) (hz : Generated z)
    (hfree : P.scene.Unbound j z) (v : Value) :
    Entered names P j z v (P.enterAside i j z v) V i := by
  have hscene : (P.enterAside i j z v).scene = (P.scene.push j).set P.scene.size z v :=
    Direct.enter_defineAll [z] [v]
  have h : P.scene.Enters j (P.enterAside i j z v).scene :=
    hscene ▸ (Scene.enters_push _ j).set z v
  have hslot (y : Name) (hy : y ≠ z) :
      (P.enterAside i j z v).scene.slot P.scene.size y = none := by
    rw [hscene, Scene.set_slot_of_name_ne hy]
    exact Store.scene_blank P.world.store _ y (Nat.le_refl _)
  have hQ : Agree names (P.enterAside i j z v) V :=
    hA.aside hij h fun x hx => hslot x fun e => hx (e ▸ hz)
  refine .of_enters hA hQ (Bond.later_aside h) id (.inr ⟨rfl, rfl⟩) (hA.envs_lt hij).2 h hfree ?_
    fun y _ hy => hslot y hy
  rw [hscene, Scene.set_slot_self]

theorem passage_aside {marks : List Nat} {pure : Bool}
    (h : Entered names P j z v (P.enterAside i j z v) V i) :
    Passage names k marks pure P V (P.enterAside i j z v) V :=
  ⟨h.later, h.agree, .refl _ _, fun _ => .refl _ _, .inl, .inl⟩

/-- A function has been applied, or a name been defined, in both runs. -/
def Bond.enterPair (P : Bond) (f j : FrameId) (z : Name) (ret : Value) (xs : List Name)
    (vs : List Value) : Bond :=
  P.pair f (fun _ _ => False)
    (Direct.enter P.world j fun store frame => store.defineAll frame (z :: xs) (ret :: vs)).2

/-- Binding names to values that correspond makes slots that correspond. -/
theorem rel_setAll {r : Value → Value → Prop} (habsent : r .absent .absent) {xs : List Name}
    {vs vs' : List Value} (hvs : List.Forall₂ r vs vs')
    (h : ∀ x, ¬ Generated x → Option.Rel r (V.slot f x) (W.slot g x)) :
    ∀ x, ¬ Generated x →
      Option.Rel r ((V.setAll f xs vs).slot f x) ((W.setAll g xs vs').slot g x) := by
  have hset {V W : Scene} {y : Name} {v v' : Value} (hv : r v v')
      (h : ∀ x, ¬ Generated x → Option.Rel r (V.slot f x) (W.slot g x)) (x : Name)
      (hx : ¬ Generated x) : Option.Rel r ((V.set f y v).slot f x) ((W.set g y v').slot g x) := by
    by_cases hy : x = y
    · subst hy
      rw [Scene.set_slot_self, Scene.set_slot_self]
      exact .some hv
    · rw [Scene.set_slot_of_name_ne hy, Scene.set_slot_of_name_ne hy]
      exact h x hx
  induction xs generalizing V W vs vs' with
  | nil => exact h
  | cons y xs ih =>
    cases hvs with
    | nil => exact ih .nil (hset habsent h)
    | cons hv hvs => exact ih hvs (hset hv h)

theorem enter_pair (hA : Agree names P V) (hij : P.envs i j) (hz : Generated z)
    (hfree : P.scene.Unbound j z) (ret : Value) {xs : List Name} (hxs : ∀ x ∈ xs, ¬ Generated x)
    {vs vs' : List Value} (hvs : List.Forall₂ (Rel names P) vs vs') :
    Entered names P j z ret (P.enterPair V.size j z ret xs vs')
      ((V.push i).setAll V.size xs vs) V.size := by
  have hscene : (P.enterPair V.size j z ret xs vs').scene =
      ((P.scene.push j).set P.scene.size z ret).setAll P.scene.size xs vs' :=
    Direct.enter_defineAll (z :: xs) (ret :: vs')
  have h : P.scene.Enters j (P.enterPair V.size j z ret xs vs').scene :=
    hscene ▸ ((Scene.enters_push _ j).set z ret).setAll xs vs'
  have hL : P.Later (P.enterPair V.size j z ret xs vs') := Bond.later_pair h
  have hblank (y : Name) : P.scene.slot P.scene.size y = none :=
    Store.scene_blank P.world.store _ y (Nat.le_refl _)
  have hV : V.Enters i ((V.push i).setAll V.size xs vs) := (Scene.enters_push V i).setAll xs vs
  have hQ : Agree names (P.enterPair V.size j z ret xs vs') ((V.push i).setAll V.size xs vs) := by
    refine (hA.grow (hV.grows _) (hV.blank hA.blank)).pair hij h ?_ (fun g e => ?_) ?_ nofun nofun ?_
    · rw [hV.size]
      exact Nat.lt_succ_self _
    · exact Nat.lt_irrefl _ (hA.frames_lt e).1
    · rw [hV.chain, (hV.grows fun _ _ => True).chain (hA.env_lt hij).1]
    · have hrel : List.Forall₂ (Rel names (P.enterPair V.size j z ret xs vs')) vs vs' :=
        hvs.imp fun a b e => e.mono hA hL
      intro x hx
      change Option.Rel (Rel names (P.enterPair V.size j z ret xs vs')) _
        ((P.enterPair V.size j z ret xs vs').scene.slot P.scene.size x)
      rw [hscene]
      refine rel_setAll (.bool false) hrel (fun y hy => ?_) x hx
      rw [Scene.push_slot, hA.blank _ y (Nat.le_refl _), Scene.set_slot_of_name_ne, Scene.push_slot,
        hblank]
      · exact .none
      · rintro rfl
        exact hy hz
  refine .of_enters hA hQ hL (fun e => e.resolve_right fun e => e.2.2) (.inr ⟨rfl, rfl⟩)
    (hA.envs_lt hij).2 h hfree ?_ fun y hy hyz => ?_
  · rw [hscene, Scene.setAll_slot_of_not_mem _ _ fun hmem => hxs z hmem hz, Scene.set_slot_self]
  · rw [hscene, Scene.setAll_slot_of_not_mem _ _ fun hmem => hxs y hmem hy,
      Scene.set_slot_of_name_ne hyz, Scene.push_slot, hblank]

theorem passage_pair {marks : List Nat} {pure : Bool} {xs : List Name} {vs vs' : List Value}
    (h : Entered names P j z ret (P.enterPair V.size j z ret xs vs')
      ((V.push i).setAll V.size xs vs) V.size) :
    Passage names k marks pure P V (P.enterPair V.size j z ret xs vs')
      ((V.push i).setAll V.size xs vs) := by
  have hV : V.Enters i ((V.push i).setAll V.size xs vs) := (Scene.enters_push V i).setAll xs vs
  refine ⟨h.later, h.agree, hV.grows _, fun _ => hV.grows _, ⟨?_, ?_⟩⟩
  · rintro p q (e | ⟨-, -, e⟩)
    · exact .inl e
    · exact e.elim
  · rintro a b (e | ⟨rfl, -⟩)
    · exact .inl e
    · exact .inr ⟨Nat.le_refl _, hV.size ▸ Nat.lt_succ_self _⟩

end LetLambda
