import LetLambda.Proofs.Hygiene
import LetLambda.Proofs.OrderSafety
import LetLambda.Proofs.Scene
import LetLambda.Value.Operate
import Mathlib.Data.List.Forall2

/-!
# Bonds between two runs

A tree and its transform make their frames and their functions at different times, and the
transform makes frames of which the tree knows nothing. A bond says what corresponds to what at one
moment of the two runs: which frame to which, which environment to which, and which function to
which; and it carries the world of the second run.

Two runs agree along a bond (`Agree`) if ordinary names have corresponding values in corresponding
frames and no frame or function corresponds to two others. A later bond (`Bond.Later`) has more
of everything and keeps what it had.
-/

namespace LetLambda

open Symbols (Generated nameOf)

/-- What corresponds in two runs, and the world of the second one. -/
structure Bond where
  /-- Frames that bind the same ordinary names. -/
  frames : FrameId → FrameId → Prop
  /-- Frames from which the same ordinary names are seen. -/
  envs : FrameId → FrameId → Prop
  /-- Functions, each known by its literal and its frame. -/
  funs : Nat × FrameId → Nat × FrameId → Prop
  /-- The frames of the second run that have no counterpart. -/
  aux : FrameId → Prop
  /-- The world of the second run. -/
  world : World

/-- What can be seen of the world of a bond. -/
def Bond.scene (P : Bond) : Scene := P.world.store.scene

namespace Scene

/-- A name is bound in no frame that is seen from `f` but the global one. -/
def Unbound (V : Scene) (f : FrameId) (z : Name) : Prop :=
  ∀ g ∈ V.chain f, g ≠ 0 → V.slot g z = none

/-- A name is bound to a value in a frame seen from `f` that is not the global one. -/
def Sees (V : Scene) (f : FrameId) (z : Name) (v : Value) : Prop :=
  ∃ g, V.resolve f z = some g ∧ g ≠ 0 ∧ V.slot g z = some v

end Scene

/-- Two chains of frames correspond, but for frames of the second one that have no counterpart. -/
inductive Chains (P : Bond) : List FrameId → List FrameId → Prop where
  | nil : Chains P [] []
  | pair {f g : FrameId} {fs gs : List FrameId} (h : P.frames f g) (hs : Chains P fs gs) :
      Chains P (f :: fs) (g :: gs)
  | skip {g : FrameId} {fs gs : List FrameId} (h : P.aux g) (hs : Chains P fs gs) :
      Chains P fs (g :: gs)

/-- The literal `g` is a transform of the safe literal `f`, and `ret` is its first parameter. -/
structure Counterpart (names : List Name) (f g : Lambda) (ret : Name) : Prop where
  name : g.name? = f.name?
  generated : Generated ret
  params : g.params = ret :: f.params
  ordinary : ∀ x ∈ f.params, ¬ Generated x
  passes : Passes f.body (.jump ret) g.body
  safe : Safe names f.body.erase
  marks : f.body.marks.Nodup

/-- Moreover, no literal of the transform has a number or a generated parameter of another. -/
structure Literal (names : List Name) (f g : Lambda) (ret : Name) : Prop
    extends Counterpart names f g ret where
  marks' : g.body.marks.Nodup
  binders : (ret :: g.body.binders).Nodup

/-- Values that correspond: they are the same, or they are functions that correspond. -/
inductive Rel (names : List Name) (P : Bond) : Value → Value → Prop where
  | int (n : Int64) : Rel names P (.int n) (.int n)
  | str (s : String) : Rel names P (.str s) (.str s)
  | bool (b : Bool) : Rel names P (.bool b) (.bool b)
  | host (x : Name) (id : Nat) : Rel names P (.host x id) (.host x id)
  | closure {f g : Lambda} {i j : FrameId} {ret : Name} (h : Literal names f g ret)
      (hfun : P.funs (f.label, i) (g.label, j))
      (hfree : ∀ b ∈ ret :: g.body.binders, P.scene.Unbound j b) :
      Rel names P (.closure f i) (.closure g j)

/-- The first run, of which `V` is seen, and the second one agree along a bond. -/
structure Agree (names : List Name) (P : Bond) (V : Scene) : Prop where
  frames_lt : ∀ {f g}, P.frames f g → f < V.size ∧ g < P.scene.size
  frames_left : ∀ {f g g'}, P.frames f g → P.frames f g' → g = g'
  frames_right : ∀ {f f' g}, P.frames f g → P.frames f' g → f = f'
  aux_lt : ∀ {g}, P.aux g → g < P.scene.size
  aux_frames : ∀ {f g}, P.aux g → ¬ P.frames f g
  envs_chain : ∀ {i j}, P.envs i j → Chains P (V.chain i) (P.scene.chain j)
  funs_envs : ∀ {p q}, P.funs p q → P.envs p.2 q.2
  funs_left : ∀ {p q q'}, P.funs p q → P.funs p q' → q = q'
  funs_right : ∀ {p p' q}, P.funs p q → P.funs p' q → p = p'
  globals : P.frames 0 0
  slots : ∀ {f g x}, P.frames f g → f = 0 ∨ ¬ Generated x →
    Option.Rel (Rel names P) (V.slot f x) (P.scene.slot g x)
  aux_slots : ∀ {g x}, P.aux g → ¬ Generated x → P.scene.slot g x = none
  blank : V.Blank

namespace Bond

/-- A bond at a later time. -/
structure Later (P Q : Bond) : Prop where
  frames : ∀ {f g}, P.frames f g → Q.frames f g
  envs : ∀ {i j}, P.envs i j → Q.envs i j
  funs : ∀ {p q}, P.funs p q → Q.funs p q
  aux : ∀ {g}, P.aux g → Q.aux g
  scene : P.scene.Grows (fun _ z => Generated z) Q.scene

/-- On the side of the first run, only functions of `funs` and frames of `frames` have found a
counterpart. -/
structure Adds (P Q : Bond) (funs : Nat × FrameId → Prop) (frames : FrameId → Prop) : Prop where
  funs : ∀ {p q}, Q.funs p q → P.funs p q ∨ funs p
  frames : ∀ {f g}, Q.frames f g → P.frames f g ∨ frames f

/-- On the side of the second run, only the literals of `marks` in the frame `j`, and functions in
new frames, have found a counterpart. -/
def Marked (P Q : Bond) (marks : List Nat) (j : FrameId) : Prop :=
  ∀ {p q}, Q.funs p q → P.funs p q ∨ (q.2 = j ∧ q.1 ∈ marks) ∨ P.scene.size ≤ q.2

/-- The terms `ts` can be evaluated in frame `j` of the second run: their literals have made no
function there, and their generated parameters are bound nowhere around. -/
structure Ready (P : Bond) (ts : List Code) (j : FrameId) : Prop where
  marks : (Term.marksAll ts).Nodup
  binders : (Term.bindersAll ts).Nodup
  unused : ∀ l ∈ Term.marksAll ts, ∀ p, ¬ P.funs p (l, j)
  unbound : ∀ b ∈ Term.bindersAll ts, P.scene.Unbound j b

/-- What is seen of generated names from frame `j` is seen later from frame `k`. -/
def Follows (P : Bond) (j : FrameId) (Q : Bond) (k : FrameId) : Prop :=
  ∀ z v, Generated z → P.scene.Sees j z v → Q.scene.Sees k z v

end Bond

/-! ### Chains and look-up -/

theorem isSome_eq_of_rel {α β : Type} {r : α → β → Prop} {a : Option α} {b : Option β}
    (h : Option.Rel r a b) : a.isSome = b.isSome := by
  cases h <;> rfl

variable {names : List Name} {P Q R : Bond} {V W : Scene} {i j k f g : FrameId} {x z : Name}
  {v v' : Value}

theorem Chains.mono {fs gs : List FrameId} (h : Chains P fs gs)
    (hframes : ∀ {f g}, P.frames f g → Q.frames f g) (haux : ∀ {g}, P.aux g → Q.aux g) :
    Chains Q fs gs := by
  induction h with
  | nil => exact .nil
  | pair h _ ih => exact .pair (hframes h) ih
  | skip h _ ih => exact .skip (haux h) ih

theorem Chains.lt {fs gs : List FrameId} (h : Chains P fs gs) (hA : Agree names P V) :
    (∀ f ∈ fs, f < V.size) ∧ ∀ g ∈ gs, g < P.scene.size := by
  induction h with
  | nil => exact ⟨nofun, nofun⟩
  | pair h _ ih =>
    obtain ⟨hf, hg⟩ := hA.frames_lt h
    exact ⟨List.forall_mem_cons.mpr ⟨hf, ih.1⟩, List.forall_mem_cons.mpr ⟨hg, ih.2⟩⟩
  | skip h _ ih => exact ⟨ih.1, List.forall_mem_cons.mpr ⟨hA.aux_lt h, ih.2⟩⟩

theorem Chains.matched {fs gs : List FrameId} (h : Chains P fs gs) (hf : f ∈ fs) :
    ∃ g, P.frames f g := by
  induction h with
  | nil => cases hf
  | pair h _ ih =>
    rcases List.mem_cons.mp hf with rfl | hf
    · exact ⟨_, h⟩
    · exact ih hf
  | skip _ _ ih => exact ih hf

/-- The frame in which an ordinary name is found corresponds to the one in which it is found. -/
theorem Chains.find {fs gs : List FrameId} (h : Chains P fs gs) (hA : Agree names P V)
    (hx : ¬ Generated x) (hf : fs.find? (fun f => (V.slot f x).isSome) = some f) :
    ∃ g, gs.find? (fun g => (P.scene.slot g x).isSome) = some g ∧ P.frames f g := by
  induction h with
  | nil => cases hf
  | @pair f₁ g₁ fs gs h _ ih =>
    have hiff := isSome_eq_of_rel (hA.slots h (.inr hx))
    simp only [List.find?_cons, ← hiff] at hf ⊢
    cases hsome : (V.slot f₁ x).isSome with
    | true =>
      rw [hsome] at hf
      cases hf
      exact ⟨g₁, rfl, h⟩
    | false =>
      rw [hsome] at hf
      exact ih hf
  | skip h _ ih =>
    obtain ⟨g, hg, hfg⟩ := ih hf
    exact ⟨g, by rw [List.find?_cons, hA.aux_slots h hx]; exact hg, hfg⟩

namespace Agree

theorem envs_lt (hA : Agree names P V) (h : P.envs i j) :
    (∀ f ∈ V.chain i, f < V.size) ∧ ∀ g ∈ P.scene.chain j, g < P.scene.size :=
  (hA.envs_chain h).lt hA

theorem env_lt (hA : Agree names P V) (h : P.envs i j) : i < V.size ∧ j < P.scene.size :=
  ⟨(hA.envs_lt h).1 i List.mem_cons_self, (hA.envs_lt h).2 j List.mem_cons_self⟩

theorem funs_lt (hA : Agree names P V) {p q : Nat × FrameId} (h : P.funs p q) :
    p.2 < V.size ∧ q.2 < P.scene.size := hA.env_lt (hA.funs_envs h)

theorem size_pos (hA : Agree names P V) : 0 < P.scene.size := (hA.frames_lt hA.globals).2

theorem resolve (hA : Agree names P V) (h : P.envs i j) (hx : ¬ Generated x)
    (hf : V.resolve i x = some f) : ∃ g, P.scene.resolve j x = some g ∧ P.frames f g :=
  (hA.envs_chain h).find hA hx hf

/-- An ordinary name has corresponding values in corresponding environments. -/
theorem lookup (hA : Agree names P V) (h : P.envs i j) (hx : ¬ Generated x)
    (hv : V.lookup i x = some v) : ∃ v', P.scene.lookup j x = some v' ∧ Rel names P v v' := by
  obtain ⟨f, hf, hv⟩ := Option.bind_eq_some_iff.mp hv
  obtain ⟨g, hg, hfg⟩ := hA.resolve h hx hf
  have hslot := hA.slots hfg (.inr hx)
  rw [hv] at hslot
  cases hv' : P.scene.slot g x with
  | none =>
    rw [hv'] at hslot
    cases hslot
  | some v' =>
    rw [hv'] at hslot
    cases hslot with
    | some h => exact ⟨v', by rw [Scene.lookup, hg]; exact hv', h⟩

end Agree

/-! ### Later bonds -/

namespace Bond

theorem Later.refl (P : Bond) : P.Later P :=
  ⟨id, id, id, id, .refl _ _⟩

theorem Later.trans (h : P.Later Q) (h' : Q.Later R) : P.Later R :=
  ⟨fun e => h'.frames (h.frames e), fun e => h'.envs (h.envs e), fun e => h'.funs (h.funs e),
    fun e => h'.aux (h.aux e), h.scene.trans h'.scene⟩

theorem Later.unbound (h : P.Later Q) (hj : ∀ g ∈ P.scene.chain j, g < P.scene.size)
    (hz : Generated z) (hu : P.scene.Unbound j z) : Q.scene.Unbound j z := by
  intro g hg hg0
  rw [h.scene.chain (hj j List.mem_cons_self)] at hg
  rw [h.scene.slot g (hj g hg) z hz]
  exact hu g hg hg0

theorem Later.sees (h : P.Later Q) (hj : ∀ g ∈ P.scene.chain j, g < P.scene.size)
    (hz : Generated z) (hs : P.scene.Sees j z v) : Q.scene.Sees j z v := by
  obtain ⟨g, hg, hg0, hv⟩ := hs
  refine ⟨g, by rw [h.scene.resolve hj, hg], hg0, ?_⟩
  rw [h.scene.slot g (hj g (Scene.mem_chain_of_resolve hg)) z hz, hv]

theorem Later.follows (h : P.Later Q) (hA : Agree names P V) (hj : P.envs i j) :
    P.Follows j Q j :=
  fun _ _ hz hs => h.sees (hA.envs_lt hj).2 hz hs

theorem Follows.trans (h : P.Follows j Q k) {l : FrameId} (h' : Q.Follows k R l) :
    P.Follows j R l :=
  fun z v hz hs => h' z v hz (h z v hz hs)

end Bond

theorem Literal.generated_of_mem {lam lam' : Lambda} {ret b : Name}
    (h : Literal names lam lam' ret) (hb : b ∈ ret :: lam'.body.binders) : Generated b := by
  rcases List.mem_cons.mp hb with rfl | hb
  · exact h.generated
  · exact Term.generated_of_mem_binders _ hb

theorem Rel.mono (h : Rel names P v v') (hA : Agree names P V) (hPQ : P.Later Q) :
    Rel names Q v v' := by
  cases h with
  | int n => exact .int n
  | str s => exact .str s
  | bool b => exact .bool b
  | host x id => exact .host x id
  | closure h hfun hfree =>
    refine .closure h (hPQ.funs hfun) fun b hb => ?_
    have hj := (hA.envs_lt (hA.funs_envs hfun)).2
    exact hPQ.unbound hj (h.generated_of_mem hb) (hfree b hb)

theorem Rel.slot_mono {a b : Option Value} (h : Option.Rel (Rel names P) a b)
    (hA : Agree names P V) (hPQ : P.Later Q) : Option.Rel (Rel names Q) a b := by
  cases h with
  | some h => exact .some (h.mono hA hPQ)
  | none => exact .none

theorem Agree.chains_later (hA : Agree names P V) (hPQ : P.Later Q) (h : P.envs i j) :
    Chains Q (V.chain i) (Q.scene.chain j) := by
  rw [hPQ.scene.chain (hA.env_lt h).2]
  exact (hA.envs_chain h).mono hPQ.frames hPQ.aux

/-! ### Extending a bond -/

namespace Bond

/-- The second run has entered a frame of which the first one knows nothing. -/
def aside (P : Bond) (i : FrameId) (world : World) : Bond :=
  { P with
    envs := fun a b => P.envs a b ∨ (a = i ∧ b = P.scene.size)
    aux := fun b => P.aux b ∨ b = P.scene.size
    world }

/-- The second run has entered a frame that corresponds to frame `f`. The functions of `new` have
been made in it. -/
def pair (P : Bond) (f : FrameId) (new : Nat → Nat → Prop) (world : World) : Bond :=
  { P with
    frames := fun a b => P.frames a b ∨ (a = f ∧ b = P.scene.size)
    envs := fun a b => P.envs a b ∨ (a = f ∧ b = P.scene.size)
    funs := fun p q => P.funs p q ∨ (p.2 = f ∧ q.2 = P.scene.size ∧ new p.1 q.1)
    world }

/-- The second run has made a function that corresponds to one of the first. -/
def meet (P : Bond) (p q : Nat × FrameId) : Bond :=
  { P with funs := fun a b => P.funs a b ∨ (a = p ∧ b = q) }

/-- The world of the second run has changed. -/
def become (P : Bond) (world : World) : Bond := { P with world }

theorem later_aside {world : World} (h : P.scene.Enters j world.store.scene) :
    P.Later (P.aside i world) :=
  ⟨id, .inl, id, .inl, h.grows _⟩

theorem later_pair {world : World} {new : Nat → Nat → Prop}
    (h : P.scene.Enters j world.store.scene) : P.Later (P.pair f new world) :=
  ⟨.inl, .inl, .inl, id, h.grows _⟩

theorem later_meet (P : Bond) (p q : Nat × FrameId) : P.Later (P.meet p q) :=
  ⟨id, id, .inl, id, .refl _ _⟩

theorem later_become {world : World}
    (h : P.scene.Grows (fun _ z => Generated z) world.store.scene) : P.Later (P.become world) :=
  ⟨id, id, id, id, h⟩

end Bond

namespace Agree

/-- Frames of the first run that correspond to nothing are of no importance. -/
theorem grow (hA : Agree names P V) (h : V.Grows (fun _ _ => True) W) (hW : W.Blank) :
    Agree names P W where
  frames_lt e := ⟨Nat.lt_of_lt_of_le (hA.frames_lt e).1 h.size_le, (hA.frames_lt e).2⟩
  frames_left := hA.frames_left
  frames_right := hA.frames_right
  aux_lt := hA.aux_lt
  aux_frames := hA.aux_frames
  envs_chain e := by
    rw [h.chain (hA.env_lt e).1]
    exact hA.envs_chain e
  funs_envs := hA.funs_envs
  funs_left := hA.funs_left
  funs_right := hA.funs_right
  globals := hA.globals
  slots {f g x} e hx := by
    rw [h.slot f (hA.frames_lt e).1 x trivial]
    exact hA.slots e hx
  aux_slots := hA.aux_slots
  blank := hW

theorem aside (hA : Agree names P V) (hij : P.envs i j) {world : World}
    (h : P.scene.Enters j world.store.scene)
    (hord : ∀ x, ¬ Generated x → world.store.scene.slot P.scene.size x = none) :
    Agree names (P.aside i world) V := by
  have hL : P.Later (P.aside i world) := Bond.later_aside h
  have hsize : P.scene.size < (P.aside i world).scene.size := by
    rw [show (P.aside i world).scene.size = _ from h.size]
    exact Nat.lt_succ_self _
  have hnew {f : FrameId} (e : P.frames f P.scene.size) : False :=
    Nat.lt_irrefl _ (hA.frames_lt e).2
  exact {
    frames_lt := fun e => ⟨(hA.frames_lt e).1, Nat.lt_trans (hA.frames_lt e).2 hsize⟩
    frames_left := hA.frames_left
    frames_right := hA.frames_right
    aux_lt := by
      rintro g (e | rfl)
      · exact Nat.lt_trans (hA.aux_lt e) hsize
      · exact hsize
    aux_frames := by
      rintro f g (e | rfl)
      · exact hA.aux_frames e
      · exact hnew
    envs_chain := by
      rintro a b (e | ⟨rfl, rfl⟩)
      · exact hA.chains_later hL e
      · rw [show (P.aside a world).scene.chain P.scene.size = _ from h.chain]
        exact .skip (.inr rfl) ((hA.envs_chain hij).mono id .inl)
    funs_envs := fun e => .inl (hA.funs_envs e)
    funs_left := hA.funs_left
    funs_right := hA.funs_right
    globals := hA.globals
    slots := by
      intro f g x e hx
      rw [show (P.aside i world).scene.slot g x = _ from h.slot g (fun e' => hnew (e' ▸ e)) x]
      exact Rel.slot_mono (hA.slots e hx) hA hL
    aux_slots := by
      rintro g x (e | rfl) hx
      · rw [show (P.aside i world).scene.slot g x = _ from
          h.slot g (Nat.ne_of_lt (hA.aux_lt e)) x]
        exact hA.aux_slots e hx
      · exact hord x hx
    blank := hA.blank }

theorem pair (hA : Agree names P V) (hij : P.envs i j) {world : World}
    {new : Nat → Nat → Prop} (h : P.scene.Enters j world.store.scene) (hf : f < V.size)
    (hfree : ∀ g, ¬ P.frames f g) (hchain : V.chain f = f :: V.chain i)
    (hleft : ∀ {a b b'}, new a b → new a b' → b = b')
    (hright : ∀ {a a' b}, new a b → new a' b → a = a')
    (hslots : ∀ x, ¬ Generated x → Option.Rel (Rel names (P.pair f new world)) (V.slot f x)
      (world.store.scene.slot P.scene.size x)) :
    Agree names (P.pair f new world) V := by
  have hL : P.Later (P.pair f new world) := Bond.later_pair h
  have hsize : P.scene.size < (P.pair f new world).scene.size := by
    rw [show (P.pair f new world).scene.size = _ from h.size]
    exact Nat.lt_succ_self _
  have hnew {f : FrameId} (e : P.frames f P.scene.size) : False :=
    Nat.lt_irrefl _ (hA.frames_lt e).2
  have hslot (g : FrameId) (hg : g < P.scene.size) (x : Name) :
      (P.pair f new world).scene.slot g x = P.scene.slot g x := h.slot g (Nat.ne_of_lt hg) x
  -- a function in a frame without counterpart has none either
  have hfun {p q : Nat × FrameId} (e : P.funs p q) : p.2 ≠ f ∧ q.2 ≠ P.scene.size := by
    refine ⟨?_, Nat.ne_of_lt (hA.funs_lt e).2⟩
    rintro rfl
    obtain ⟨g, hg⟩ := (hA.envs_chain (hA.funs_envs e)).matched List.mem_cons_self
    exact hfree g hg
  exact {
    frames_lt := by
      rintro a b (e | ⟨rfl, rfl⟩)
      · exact ⟨(hA.frames_lt e).1, Nat.lt_trans (hA.frames_lt e).2 hsize⟩
      · exact ⟨hf, hsize⟩
    frames_left := by
      rintro a b b' (e | ⟨rfl, rfl⟩) (e' | ⟨ha, rfl⟩)
      · exact hA.frames_left e e'
      · exact absurd (ha ▸ e) (hfree _)
      · exact absurd e' (hfree _)
      · rfl
    frames_right := by
      rintro a a' b (e | ⟨rfl, rfl⟩) (e' | ⟨rfl, hb⟩)
      · exact hA.frames_right e e'
      · exact (hnew (hb ▸ e)).elim
      · exact (hnew e').elim
      · rfl
    aux_lt := fun e => Nat.lt_trans (hA.aux_lt e) hsize
    aux_frames := by
      rintro a b e (e' | ⟨rfl, rfl⟩)
      · exact hA.aux_frames e e'
      · exact Nat.lt_irrefl _ (hA.aux_lt e)
    envs_chain := by
      rintro a b (e | ⟨rfl, rfl⟩)
      · exact hA.chains_later hL e
      · rw [show (P.pair a new world).scene.chain P.scene.size = _ from h.chain, hchain]
        exact .pair (.inr ⟨rfl, rfl⟩) ((hA.envs_chain hij).mono .inl id)
    funs_envs := by
      rintro p q (e | ⟨hp, hq, -⟩)
      · exact .inl (hA.funs_envs e)
      · exact .inr ⟨hp, hq⟩
    funs_left := by
      rintro p q q' (e | ⟨hp, hq, e⟩) (e' | ⟨hp', hq', e'⟩)
      · exact hA.funs_left e e'
      · exact absurd hp' (hfun e).1
      · exact absurd hp (hfun e').1
      · exact Prod.ext (hleft e e') (hq.trans hq'.symm)
    funs_right := by
      rintro p p' q (e | ⟨hp, hq, e⟩) (e' | ⟨hp', hq', e'⟩)
      · exact hA.funs_right e e'
      · exact absurd hq' (hfun e).2
      · exact absurd hq (hfun e').2
      · exact Prod.ext (hright e e') (hp.trans hp'.symm)
    globals := .inl hA.globals
    slots := by
      rintro a b x (e | ⟨rfl, rfl⟩) hx
      · rw [hslot b (hA.frames_lt e).2]
        exact Rel.slot_mono (hA.slots e hx) hA hL
      · rcases hx with rfl | hx
        · exact absurd hA.globals (hfree 0)
        · exact hslots x hx
    aux_slots := by
      intro g x e hx
      rw [hslot g (hA.aux_lt e)]
      exact hA.aux_slots e hx
    blank := hA.blank }

theorem meet (hA : Agree names P V) {p q : Nat × FrameId} (henv : P.envs p.2 q.2)
    (hp : ∀ q, ¬ P.funs p q) (hq : ∀ p, ¬ P.funs p q) : Agree names (P.meet p q) V := by
  have hL : P.Later (P.meet p q) := Bond.later_meet P p q
  exact {
    frames_lt := hA.frames_lt
    frames_left := hA.frames_left
    frames_right := hA.frames_right
    aux_lt := hA.aux_lt
    aux_frames := hA.aux_frames
    envs_chain := fun e => hA.chains_later hL e
    funs_envs := by
      rintro a b (e | ⟨rfl, rfl⟩)
      · exact hA.funs_envs e
      · exact henv
    funs_left := by
      rintro a b b' (e | ⟨ha, hb⟩) (e' | ⟨ha', hb'⟩)
      · exact hA.funs_left e e'
      · exact absurd (ha' ▸ e) (hp b)
      · exact absurd (ha ▸ e') (hp b')
      · exact hb.trans hb'.symm
    funs_right := by
      rintro a a' b (e | ⟨ha, hb⟩) (e' | ⟨ha', hb'⟩)
      · exact hA.funs_right e e'
      · exact absurd (hb' ▸ e) (hq a)
      · exact absurd (hb ▸ e') (hq a')
      · exact ha.trans ha'.symm
    globals := hA.globals
    slots := fun e hx => Rel.slot_mono (hA.slots e hx) hA hL
    aux_slots := hA.aux_slots
    blank := hA.blank }

/-- The world of the second run has changed, and slots of the first one, but no frame. -/
theorem become (hA : Agree names P V) {world : World} (hL : P.Later (P.become world))
    (hsize : W.size = V.size) (hchain : ∀ i, W.chain i = V.chain i)
    (hslots : ∀ {a b y}, P.frames a b → a = 0 ∨ ¬ Generated y →
      Option.Rel (Rel names (P.become world)) (W.slot a y) (world.store.scene.slot b y))
    (haux : ∀ {b y}, P.aux b → ¬ Generated y → world.store.scene.slot b y = none)
    (hblank : W.Blank) : Agree names (P.become world) W where
  frames_lt e := by
    rw [hsize]
    exact ⟨(hA.frames_lt e).1, Nat.lt_of_lt_of_le (hA.frames_lt e).2 hL.scene.size_le⟩
  frames_left := hA.frames_left
  frames_right := hA.frames_right
  aux_lt e := Nat.lt_of_lt_of_le (hA.aux_lt e) hL.scene.size_le
  aux_frames := hA.aux_frames
  envs_chain e := by
    rw [hchain]
    exact hA.chains_later hL e
  funs_envs := hA.funs_envs
  funs_left := hA.funs_left
  funs_right := hA.funs_right
  globals := hA.globals
  slots := hslots
  aux_slots := haux
  blank := hblank

/-- The second run has printed. -/
theorem print (hA : Agree names P V) {world : World} (h : world.store.scene = P.scene) :
    P.Later (P.become world) ∧ Agree names (P.become world) V := by
  have hL : P.Later (P.become world) := Bond.later_become (h ▸ .refl _ _)
  refine ⟨hL, hA.become hL rfl (fun _ => rfl) (fun e hy => ?_) (fun e hy => ?_) hA.blank⟩
  · rw [h]
    exact Rel.slot_mono (hA.slots e hy) hA hL
  · rw [h]
    exact hA.aux_slots e hy

/-- Both runs have assigned to an ordinary name. -/
theorem assign (hA : Agree names P V) (hfg : P.frames f g) (hx : ¬ Generated x)
    (hslot : (V.slot f x).isSome) (hv : Rel names P v v') {world : World}
    (h : world.store.scene = P.scene.set g x v') :
    P.Later (P.become world) ∧ Agree names (P.become world) (V.set f x v) := by
  have hslot' : (P.scene.slot g x).isSome := by
    rw [← isSome_eq_of_rel (hA.slots hfg (.inr hx))]
    exact hslot
  have hL : P.Later (P.become world) := by
    refine Bond.later_become (h ▸ ?_)
    change P.scene.Grows _ (P.scene.updates [⟨g, x, v'⟩])
    refine .of_updates (fun u hu => ?_) fun u hu => ?_
    · exact List.mem_singleton.mp hu ▸ hslot'
    · exact List.mem_singleton.mp hu ▸ hx
  refine ⟨hL, hA.become hL rfl (fun _ => rfl) (fun {a b y} e hy => ?_) (fun {b y} e hy => ?_) ?_⟩
  · rw [h, Scene.set_slot, Scene.set_slot]
    by_cases hay : a = f ∧ y = x
    · obtain ⟨rfl, rfl⟩ := hay
      rw [hA.frames_left e hfg, if_pos ⟨rfl, rfl⟩, if_pos ⟨rfl, rfl⟩]
      exact .some (hv.mono hA hL)
    · have hby : ¬ (b = g ∧ y = x) := by
        rintro ⟨rfl, rfl⟩
        exact hay ⟨hA.frames_right e hfg, rfl⟩
      rw [if_neg hay, if_neg hby]
      exact Rel.slot_mono (hA.slots e hy) hA hL
  · rw [h, Scene.set_slot_of_frame_ne fun hb => hA.aux_frames e (hb ▸ hfg)]
    exact hA.aux_slots e hy
  · intro a y ha
    rw [Scene.set_slot_of_frame_ne fun haf => ?_]
    · exact hA.blank a y ha
    · exact absurd (hA.frames_lt hfg).1 (haf ▸ Nat.not_lt.mpr ha)

end Agree

/-! ### Operators on values that correspond -/

namespace Rel

variable {a a' b b' : Value}

theorem isTruthy (h : Rel names P v v') : v'.isTruthy = v.isTruthy := by
  cases h with
  | bool b => cases b <;> rfl
  | _ => rfl

/-- Functions are told apart in both runs alike. -/
theorem same (hA : Agree names P V) (ha : Rel names P a a') (hb : Rel names P b b') :
    a'.same b' = a.same b := by
  cases ha with
  | @closure f g i j _ _ hf _ =>
    cases hb with
    | @closure f₁ g₁ i₁ j₁ _ _ hf₁ _ =>
      rw [Bool.eq_iff_iff]
      simp only [Value.same, Bool.and_eq_true, decide_eq_true_eq]
      constructor
      · rintro ⟨hl, hj⟩
        rw [hl, hj] at hf
        exact Prod.mk.inj (hA.funs_right hf hf₁)
      · rintro ⟨hl, hi⟩
        rw [hl, hi] at hf
        exact Prod.mk.inj (hA.funs_left hf hf₁)
    | _ => rfl
  | _ => cases hb <;> rfl

theorem toInt_eq_ok {n : Int} (h : Rel names P v v') (hv : v.toInt = .ok n) : v'.toInt = .ok n := by
  cases h with
  | int n => exact hv
  | _ => cases hv

theorem onInts {op : Int → Int → Except EvalError Value}
    (hop : ∀ m n r, op m n = .ok r → Rel names P r r) (ha : Rel names P a a')
    (hb : Rel names P b b') (h : Value.onInts a b op = .ok v) :
    ∃ v', Value.onInts a' b' op = .ok v' ∧ Rel names P v v' := by
  cases hm : a.toInt with
  | error e =>
    rw [Value.onInts, hm] at h
    cases h
  | ok m =>
    cases hn : b.toInt with
    | error e =>
      rw [Value.onInts, hm, hn] at h
      cases h
    | ok n =>
      rw [Value.onInts, hm, hn] at h
      refine ⟨v, ?_, hop m n v h⟩
      rw [Value.onInts, ha.toInt_eq_ok hm, hb.toInt_eq_ok hn]
      exact h

theorem ofResult {operation : Arithmetic} {r : Int} (h : Value.ofResult operation r = .ok v) :
    Rel names P v v := by
  unfold Value.ofResult at h
  split at h
  · cases h
    exact .int _
  · cases h

theorem operate (hA : Agree names P V) {op : BinaryOp} (ha : Rel names P a a')
    (hb : Rel names P b b') (h : Value.operate op a b = .ok v) :
    ∃ v', Value.operate op a' b' = .ok v' ∧ Rel names P v v' := by
  cases op with
  | and =>
    cases h
    refine ⟨_, rfl, ?_⟩
    rw [ha.isTruthy]
    split
    · exact hb
    · exact .bool false
  | or =>
    cases h
    refine ⟨_, rfl, ?_⟩
    rw [ha.isTruthy]
    split
    · exact ha
    · exact hb
  | eq =>
    cases h
    refine ⟨_, rfl, ?_⟩
    rw [same hA ha hb]
    exact .bool _
  | ne =>
    cases h
    refine ⟨_, rfl, ?_⟩
    rw [same hA ha hb]
    exact .bool _
  | add | sub | mul => exact onInts (fun m n r hr => ofResult hr) ha hb h
  | div =>
    refine onInts (fun m n r hr => ?_) ha hb h
    split at hr
    · cases hr
    · exact ofResult hr
  | mod =>
    refine onInts (fun m n r hr => ?_) ha hb h
    split at hr
    · cases hr
    · cases hq : Value.ofResult .remainder (m.tdiv n) with
      | error e =>
        rw [hq] at hr
        cases hr
      | ok q =>
        rw [hq] at hr
        exact ofResult hr
  | lt | le | gt | ge =>
    refine onInts (fun m n r hr => ?_) ha hb h
    cases hr
    exact .bool _

theorem operateSymbol (hA : Agree names P V) {symbol : String} (ha : Rel names P a a')
    (hb : Rel names P b b') (h : Value.operateSymbol symbol a b = .ok v) :
    ∃ v', Value.operateSymbol symbol a' b' = .ok v' ∧ Rel names P v v' := by
  unfold Value.operateSymbol at h ⊢
  cases hop : BinaryOp.ofSymbol? symbol with
  | none =>
    rw [hop] at h
    cases h
  | some op =>
    rw [hop] at h
    exact operate hA ha hb h

end Rel

end LetLambda
