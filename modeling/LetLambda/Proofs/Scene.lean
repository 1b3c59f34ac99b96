import LetLambda.Proofs.Reference
import Mathlib.Data.List.Find

/-!
# What can be seen of a store

A scene says which frames stand around a frame and what is read from a name in it, and no more: how
slots are kept, and whether a slot holds a function or the function's own name, is left out. Looking
names up, assigning to them and entering frames can be told on scenes.

Assignments that have not been made yet are a list of updates (`Scene.updates`). A scene grows
(`Scene.Grows`) when frames come in and names keep the frames in which they are bound.
-/

namespace LetLambda

/-- What can be seen of a store. -/
@[ext]
structure Scene where
  /-- The number of frames. -/
  size : Nat
  /-- The frames around a frame, the nearest first. -/
  outer : FrameId → List FrameId
  /-- What is read from a name in a frame itself. -/
  slot : FrameId → Name → Option Value

/-- A value that a name is to get in a frame. -/
structure Update where
  /-- The frame. -/
  frame : FrameId
  /-- The name. -/
  name : Name
  /-- The value. -/
  value : Value

namespace Scene

/-- The frames in which a name is looked up from frame `f`. -/
def chain (V : Scene) (f : FrameId) : List FrameId := f :: V.outer f

/-- The nearest frame from `f` outward that binds a name. -/
def resolve (V : Scene) (f : FrameId) (x : Name) : Option FrameId :=
  (V.chain f).find? fun g => (V.slot g x).isSome

/-- The value of a name seen from frame `f`. -/
def lookup (V : Scene) (f : FrameId) (x : Name) : Option Value :=
  (V.resolve f x).bind fun g => V.slot g x

/-- Binds a name in a frame itself. -/
def set (V : Scene) (f : FrameId) (x : Name) (v : Value) : Scene :=
  { V with slot := fun g y => if g = f ∧ y = x then some v else V.slot g y }

/-- Adds a frame inside frame `f`. -/
def push (V : Scene) (f : FrameId) : Scene :=
  { V with
    size := V.size + 1
    outer := fun g => if g = V.size then V.chain f else V.outer g }

/-- Binds parameters to arguments. -/
def setAll (V : Scene) (f : FrameId) : List Name → List Value → Scene
  | [], _ => V
  | x :: xs, [] => (V.set f x .absent).setAll f xs []
  | x :: xs, v :: vs => (V.set f x v).setAll f xs vs

/-- Makes updates one after another. -/
def updates (V : Scene) : List Update → Scene
  | [] => V
  | u :: us => (V.set u.frame u.name u.value).updates us

/-- No name is bound in a frame that is not there. -/
def Blank (V : Scene) : Prop := ∀ f x, V.size ≤ f → V.slot f x = none

/-! ### Binding names -/

variable {V W : Scene} {f g i : FrameId} {x y : Name} {v : Value} {us : List Update}

theorem isSome_of_resolve (h : V.resolve f x = some g) : (V.slot g x).isSome = true :=
  List.find?_some (p := fun g => (V.slot g x).isSome) h

theorem mem_chain_of_resolve (h : V.resolve f x = some g) : g ∈ V.chain f :=
  List.mem_of_find?_eq_some h

@[simp] theorem set_size : (V.set f x v).size = V.size := rfl

@[simp] theorem set_outer : (V.set f x v).outer g = V.outer g := rfl

@[simp] theorem set_chain : (V.set f x v).chain g = V.chain g := rfl

theorem set_slot : (V.set f x v).slot g y = if g = f ∧ y = x then some v else V.slot g y := rfl

@[simp] theorem set_slot_self : (V.set f x v).slot f x = some v := if_pos ⟨rfl, rfl⟩

theorem set_slot_of_frame_ne (h : g ≠ f) : (V.set f x v).slot g y = V.slot g y :=
  if_neg fun e => h e.1

theorem set_slot_of_name_ne (h : y ≠ x) : (V.set f x v).slot g y = V.slot g y :=
  if_neg fun e => h e.2

@[simp] theorem push_size : (V.push i).size = V.size + 1 := rfl

@[simp] theorem push_slot : (V.push i).slot g y = V.slot g y := rfl

@[simp] theorem push_chain_self : (V.push i).chain V.size = V.size :: V.chain i := by
  simp [chain, push]

theorem push_outer_of_lt (h : g < V.size) : (V.push i).outer g = V.outer g :=
  if_neg (Nat.ne_of_lt h)

theorem setAll_size (V : Scene) (f : FrameId) (xs : List Name) (vs : List Value) :
    (V.setAll f xs vs).size = V.size := by
  induction xs generalizing V vs with
  | nil => rfl
  | cons x xs ih => cases vs <;> simp [setAll, ih]

theorem setAll_slot_of_not_mem (V : Scene) {xs : List Name} (vs : List Value) (h : y ∉ xs) :
    (V.setAll f xs vs).slot g y = V.slot g y := by
  induction xs generalizing V vs with
  | nil => rfl
  | cons x xs ih =>
    rw [List.mem_cons, not_or] at h
    cases vs <;> simp [setAll, ih _ _ h.2, set_slot_of_name_ne h.1]

/-! ### Updates -/

theorem updates_append (V : Scene) (us us' : List Update) :
    V.updates (us ++ us') = (V.updates us).updates us' := by
  induction us generalizing V with
  | nil => rfl
  | cons u us ih => exact ih _

@[simp] theorem updates_size (V : Scene) (us : List Update) : (V.updates us).size = V.size := by
  induction us generalizing V with
  | nil => rfl
  | cons u us ih => exact ih _

@[simp] theorem updates_outer (V : Scene) (us : List Update) (g : FrameId) :
    (V.updates us).outer g = V.outer g := by
  induction us generalizing V with
  | nil => rfl
  | cons u us ih => exact ih _

@[simp] theorem updates_chain (V : Scene) (us : List Update) (g : FrameId) :
    (V.updates us).chain g = V.chain g := by
  simp [chain]

theorem updates_slot_congr (h : V.slot g y = W.slot g y) :
    (V.updates us).slot g y = (W.updates us).slot g y := by
  induction us generalizing V W with
  | nil => exact h
  | cons u us ih => exact ih (by simp [set_slot, h])

theorem isSome_updates_slot_congr (h : (V.slot g y).isSome = (W.slot g y).isSome) :
    ((V.updates us).slot g y).isSome = ((W.updates us).slot g y).isSome := by
  induction us generalizing V W with
  | nil => exact h
  | cons u us ih =>
    refine ih ?_
    rw [set_slot, set_slot]
    split
    · rfl
    · exact h

theorem updates_slot_of_ne (h : ∀ u ∈ us, u.frame = g → u.name ≠ y) :
    (V.updates us).slot g y = V.slot g y := by
  induction us generalizing V with
  | nil => rfl
  | cons u us ih =>
    rw [List.forall_mem_cons] at h
    exact (ih h.2).trans (if_neg fun e => h.1 e.1.symm e.2.symm)

/-- Updates of names that are bound bind no others. -/
theorem isSome_updates_slot (h : ∀ u ∈ us, (V.slot u.frame u.name).isSome) :
    ((V.updates us).slot g y).isSome = (V.slot g y).isSome := by
  induction us generalizing V with
  | nil => rfl
  | cons u us ih =>
    rw [List.forall_mem_cons] at h
    have hset (g : FrameId) (y : Name) :
        ((V.set u.frame u.name u.value).slot g y).isSome = (V.slot g y).isSome := by
      rw [set_slot]
      split
      · next e => simp [e.1, e.2, h.1]
      · rfl
    exact (ih fun u' hu' => (hset _ _).trans (h.2 u' hu')).trans (hset g y)

theorem updates_push (V : Scene) (us : List Update) (i : FrameId) :
    (V.push i).updates us = (V.updates us).push i := by
  induction us generalizing V with
  | nil => rfl
  | cons u us ih => exact ih (V.set u.frame u.name u.value)

theorem updates_set (h : ∀ u ∈ us, u.frame ≠ f) :
    (V.set f x v).updates us = (V.updates us).set f x v := by
  ext1
  · simp
  · funext g
    simp
  · funext g y
    by_cases hg : g = f ∧ y = x
    · obtain ⟨rfl, rfl⟩ := hg
      rw [updates_slot_of_ne fun u hu e => absurd e (h u hu)]
      simp
    · rw [set_slot, if_neg hg]
      exact updates_slot_congr (if_neg hg)

/-! ### Growth -/

/-- Frames have come in, every name is bound where it was, and what is read from the names of
`keep` is what it was. -/
structure Grows (V : Scene) (keep : FrameId → Name → Prop) (W : Scene) : Prop where
  size_le : V.size ≤ W.size
  outer : ∀ f < V.size, W.outer f = V.outer f
  isSome : ∀ f < V.size, ∀ x, (W.slot f x).isSome = (V.slot f x).isSome
  slot : ∀ f < V.size, ∀ x, keep f x → W.slot f x = V.slot f x

namespace Grows

variable {keep keep' : FrameId → Name → Prop} {X : Scene}

theorem refl (V : Scene) (keep : FrameId → Name → Prop) : V.Grows keep V :=
  ⟨Nat.le_refl _, fun _ _ => rfl, fun _ _ _ => rfl, fun _ _ _ _ => rfl⟩

theorem trans (h : V.Grows keep W) (h' : W.Grows keep X) : V.Grows keep X where
  size_le := Nat.le_trans h.size_le h'.size_le
  outer f hf := (h'.outer f (Nat.lt_of_lt_of_le hf h.size_le)).trans (h.outer f hf)
  isSome f hf x := (h'.isSome f (Nat.lt_of_lt_of_le hf h.size_le) x).trans (h.isSome f hf x)
  slot f hf x hk := (h'.slot f (Nat.lt_of_lt_of_le hf h.size_le) x hk).trans (h.slot f hf x hk)

theorem mono (h : V.Grows keep W) (hk : ∀ f < V.size, ∀ x, keep' f x → keep f x) :
    V.Grows keep' W :=
  ⟨h.size_le, h.outer, h.isSome, fun f hf x hx => h.slot f hf x (hk f hf x hx)⟩

theorem chain (h : V.Grows keep W) (hf : f < V.size) : W.chain f = V.chain f := by
  rw [Scene.chain, Scene.chain, h.outer f hf]

theorem resolve (h : V.Grows keep W) (hf : ∀ g ∈ V.chain f, g < V.size) (x : Name) :
    W.resolve f x = V.resolve f x := by
  rw [Scene.resolve, h.chain (hf f List.mem_cons_self)]
  exact List.find?_congr fun g hg => h.isSome g (hf g hg) x

theorem lookup (h : V.Grows keep W) (hf : ∀ g ∈ V.chain f, g < V.size)
    (hx : ∀ g, keep g x) : W.lookup f x = V.lookup f x := by
  rw [Scene.lookup, Scene.lookup, h.resolve hf]
  exact Option.bind_congr fun g hg => h.slot g (hf g (mem_chain_of_resolve hg)) x (hx g)

/-- Growth is not disturbed by updates on both sides. -/
theorem updates (h : V.Grows keep W) (us : List Update) :
    (V.updates us).Grows keep (W.updates us) := by
  refine ⟨by simpa using h.size_le, fun f hf => ?_, fun f hf x => ?_, fun f hf x hk => ?_⟩
  · simpa using h.outer f (by simpa using hf)
  · exact isSome_updates_slot_congr (h.isSome f (by simpa using hf) x)
  · exact updates_slot_congr (h.slot f (by simpa using hf) x hk)

/-- Making updates of bound names that need not be kept. -/
theorem of_updates (hb : ∀ u ∈ us, (V.slot u.frame u.name).isSome)
    (hk : ∀ u ∈ us, ¬ keep u.frame u.name) : V.Grows keep (V.updates us) := by
  refine ⟨by simp, by simp, fun f _ x => isSome_updates_slot hb, fun f _ x hx => ?_⟩
  exact updates_slot_of_ne fun u hu hf e => hk u hu (hf ▸ e ▸ hx)

/-- Undoing such updates. -/
theorem of_undone (hb : ∀ u ∈ us, (V.slot u.frame u.name).isSome)
    (hk : ∀ u ∈ us, ¬ keep u.frame u.name) : (V.updates us).Grows keep V := by
  refine ⟨by simp, by simp, fun f _ x => (isSome_updates_slot hb).symm, fun f _ x hx => ?_⟩
  exact (updates_slot_of_ne fun u hu hf e => hk u hu (hf ▸ e ▸ hx)).symm

end Grows

/-! ### Entering a frame -/

/-- A frame has come in inside frame `i`, and nothing else has happened. -/
structure Enters (V : Scene) (i : FrameId) (W : Scene) : Prop where
  size : W.size = V.size + 1
  chain : W.chain V.size = V.size :: V.chain i
  outer : ∀ f < V.size, W.outer f = V.outer f
  slot : ∀ f, f ≠ V.size → ∀ x, W.slot f x = V.slot f x

theorem enters_push (V : Scene) (i : FrameId) : V.Enters i (V.push i) :=
  ⟨rfl, push_chain_self, fun _ hf => push_outer_of_lt hf, fun _ _ _ => rfl⟩

namespace Enters

theorem set (h : V.Enters i W) (x : Name) (v : Value) : V.Enters i (W.set V.size x v) :=
  ⟨h.size, h.chain, h.outer, fun f hf y => (set_slot_of_frame_ne hf).trans (h.slot f hf y)⟩

theorem setAll (h : V.Enters i W) (xs : List Name) (vs : List Value) :
    V.Enters i (W.setAll V.size xs vs) := by
  induction xs generalizing W vs with
  | nil => exact h
  | cons x xs ih =>
    cases vs with
    | nil => exact ih (h.set x .absent) []
    | cons v vs => exact ih (h.set x v) vs

theorem grows (h : V.Enters i W) (keep : FrameId → Name → Prop) : V.Grows keep W := by
  have hslot (f : FrameId) (hf : f < V.size) (x : Name) : W.slot f x = V.slot f x :=
    h.slot f (Nat.ne_of_lt hf) x
  refine ⟨?_, h.outer, fun f hf x => by rw [hslot f hf], fun f hf x _ => hslot f hf x⟩
  rw [h.size]
  exact Nat.le_succ _

theorem blank (h : V.Enters i W) (hV : V.Blank) : W.Blank := by
  intro f x hf
  rw [h.size] at hf
  rw [h.slot f (Nat.ne_of_gt hf) x]
  exact hV f x (Nat.le_of_succ_le hf)

end Enters

/-! ### Frames of another scene -/

/-- The frames of `V`, and after them those of `W`. -/
def graft (V W : Scene) : Scene :=
  { W with slot := fun f x => if f < V.size then V.slot f x else W.slot f x }

theorem blank_graft (hW : W.Blank) (h : V.size ≤ W.size) : (V.graft W).Blank := by
  intro f x hf
  exact (if_neg (Nat.not_lt.mpr (Nat.le_trans h hf))).trans (hW f x hf)

theorem grows_graft {keep : FrameId → Name → Prop} (h : (V.updates us).Grows keep W) :
    V.Grows (fun _ _ => True) (V.graft W) := by
  have hs (f : FrameId) (hf : f < V.size) (x : Name) : (V.graft W).slot f x = V.slot f x :=
    if_pos hf
  have hsize : V.size ≤ W.size := by simpa using h.size_le
  refine ⟨hsize, fun f hf => ?_, fun f hf x => by rw [hs f hf], fun f hf x _ => hs f hf x⟩
  exact (h.outer f (by simpa using hf)).trans (updates_outer V us f)

/-- What has been made without changing the frames of `V` can be made before the updates. -/
theorem updates_graft (h : (V.updates us).Grows (fun _ _ => True) W)
    (hus : ∀ u ∈ us, u.frame < V.size) : (V.graft W).updates us = W := by
  ext1
  · simp [graft]
  · funext g
    simp [graft]
  · funext g y
    by_cases hg : g < V.size
    · rw [h.slot g (by simpa using hg) y trivial]
      exact updates_slot_congr (if_pos hg)
    · rw [updates_slot_of_ne fun u hu (e : u.frame = g) => absurd (e ▸ hus u hu) hg]
      exact if_neg hg

end Scene

/-! ### The scene of a store -/

namespace Frame

theorem lookup_insert (x : Name) (slot : Slot) (slots : List (Name × Slot)) (y : Name) :
    (insert x slot slots).lookup y = if y = x then some slot else slots.lookup y := by
  have hne (z : Name) (h : y ≠ z) : (y == z) = false := beq_eq_false_iff_ne.mpr h
  induction slots with
  | nil => by_cases h : y = x <;> simp [insert, List.lookup_cons, h, hne]
  | cons entry rest ih =>
    obtain ⟨z, old⟩ := entry
    by_cases hz : z = x
    · subst hz
      by_cases h : y = z <;> simp [insert, List.lookup_cons, h, hne]
    · by_cases h : y = z
      · subst h
        simp [insert, hz]
      · simp [insert, hz, List.lookup_cons, hne z h, ih]

end Frame

namespace Store

variable {s s' : Store} {f g : FrameId} {x : Name} {v : Value}

/-- What can be seen of a store. -/
def scene (s : Store) : Scene where
  size := s.frames.size
  outer := s.outer
  slot f x := (s.slot? f x).map (Slot.read f)

theorem scene_size (s : Store) : s.scene.size = s.frames.size := rfl

theorem scene_slot (s : Store) (f : FrameId) (x : Name) :
    s.scene.slot f x = (s.slot? f x).map (Slot.read f) := rfl

theorem scene_resolve (s : Store) (f : FrameId) (x : Name) :
    s.scene.resolve f x = s.resolve? f x := by
  simp only [Scene.resolve, resolve?, scene_slot, Option.isSome_map]
  rfl

theorem scene_lookup (s : Store) (f : FrameId) (x : Name) :
    s.scene.lookup f x = s.lookup? f x := by
  rw [Scene.lookup, scene_resolve, lookup?]
  cases s.resolve? f x <;> rfl

theorem scene_blank (s : Store) : s.scene.Blank := by
  intro f x hf
  have hnone : s.frames[f]? = none := Array.getElem?_eq_none hf
  simp [scene_slot, slot?, hnone]

theorem scene_fill (hf : f < s.frames.size) (x : Name) (slot : Slot) :
    (s.fill f x slot).scene = s.scene.set f x (slot.read f) := by
  have hget (g : FrameId) : (s.fill f x slot).frames[g]? =
      if f = g then s.frames[g]?.map (Frame.bind x slot) else s.frames[g]? :=
    Array.getElem?_modify
  ext1
  · simp [scene, fill]
  · funext g
    simp only [scene, outer, Scene.set_outer, hget]
    by_cases hg : f = g
    · subst hg
      simp [Frame.bind, Array.getElem?_eq_getElem hf]
    · simp [hg]
  · funext g y
    simp only [scene_slot, slot?, Scene.set_slot, hget]
    by_cases hg : f = g
    · subst hg
      by_cases hy : y = x <;>
        simp [Frame.bind, Frame.slot?, Frame.lookup_insert, Array.getElem?_eq_getElem hf, hy]
    · simp [hg, Ne.symm hg]

theorem lt_of_isSome_slot (h : (s.scene.slot f x).isSome) : f < s.frames.size := by
  by_contra hf
  rw [scene_blank s f x (Nat.not_lt.mp hf)] at h
  cases h

theorem scene_define (hf : f < s.frames.size) (x : Name) (v : Value) :
    (s.define f x v).scene = s.scene.set f x v := scene_fill hf x (.value v)

theorem scene_extend (s : Store) (f : FrameId) : (s.extend f).2.scene = s.scene.push f := by
  have hget (g : FrameId) : (s.extend f).2.frames[g]? =
      if g = s.frames.size then some ⟨[], s.chain f⟩ else s.frames[g]? := Array.getElem?_push
  ext1
  · simp [scene, extend]
  · funext g
    simp only [scene, outer, Scene.push, hget]
    by_cases hg : g = s.frames.size <;> simp [hg, Scene.chain, chain, outer]
  · funext g y
    simp only [scene_slot, slot?, Scene.push_slot, hget]
    by_cases hg : g = s.frames.size <;> simp [hg, Frame.slot?]

theorem scene_defineAll (xs : List Name) (vs : List Value) (hf : f < s.frames.size) :
    (s.defineAll f xs vs).scene = s.scene.setAll f xs vs := by
  have hsize (s : Store) (x : Name) (v : Value) (hf : f < s.frames.size) :
      f < (s.define f x v).frames.size := by
    simpa [define, fill] using hf
  induction xs generalizing s vs with
  | nil => rfl
  | cons x xs ih =>
    cases vs with
    | nil =>
      rw [defineAll, ih _ (hsize s x .absent hf), scene_define hf]
      rfl
    | cons v vs =>
      rw [defineAll, ih _ (hsize s x v hf), scene_define hf]
      rfl

/-- Assigning to a name, as far as it can be seen. -/
theorem set?_eq_some (h : s.scene.resolve f x = some g) (v : Value) :
    ∃ s', s.set? f x v = some s' ∧ s'.scene = s.scene.set g x v := by
  refine ⟨s.define g x v, ?_, scene_define ?_ x v⟩
  · rw [scene_resolve] at h
    rw [set?, h]
  · exact lt_of_isSome_slot (Scene.isSome_of_resolve h)

theorem resolve_of_set? (h : s.set? f x v = some s') :
    ∃ g, s.scene.resolve f x = some g ∧ s'.scene = s.scene.set g x v := by
  cases hg : s.scene.resolve f x with
  | none =>
    rw [set?, ← scene_resolve, hg] at h
    cases h
  | some g =>
    obtain ⟨s'', h', hv⟩ := set?_eq_some hg v
    rw [h] at h'
    cases h'
    exact ⟨g, rfl, hv⟩

end Store

namespace Direct

variable {world : World} {env : FrameId} {x : Name} {v : Value}

theorem size_extend_lt (world : World) (env : FrameId) :
    world.store.scene.size < (world.store.extend env).2.frames.size := by
  simp [Store.scene, Store.extend]

/-- Entering a frame that binds one name. -/
theorem enter_define :
    (enter world env fun store frame => store.define frame x v).2.store.scene =
      (world.store.scene.push env).set world.store.scene.size x v := by
  rw [← Store.scene_extend]
  exact Store.scene_define (size_extend_lt world env) x v

/-- Entering a frame that binds parameters. -/
theorem enter_defineAll (xs : List Name) (vs : List Value) :
    (enter world env fun store frame => store.defineAll frame xs vs).2.store.scene =
      (world.store.scene.push env).setAll world.store.scene.size xs vs := by
  rw [← Store.scene_extend]
  exact Store.scene_defineAll xs vs (size_extend_lt world env)

/-- Entering the frame of a function's own name. -/
theorem enter_defineSelf {lambda : Lambda} (h : lambda.name? = some x) :
    (enter world env fun store frame => store.defineSelf frame lambda).2.store.scene =
      (world.store.scene.push env).set world.store.scene.size x
        (.closure lambda world.store.scene.size) := by
  rw [← Store.scene_extend]
  simp only [enter, Store.defineSelf, h]
  exact Store.scene_fill (size_extend_lt world env) x (.self lambda)

end Direct

end LetLambda
