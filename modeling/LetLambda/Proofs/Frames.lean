import LetLambda.Proofs.Scene

/-!
# Lexical scoping on shared frames

Frames are made, names are bound in them and assigned to, in any order and any number of times
(`Operation`). Each frame but those that stand alone has one frame directly around it, its parent.
A name is looked for from a frame outward, from parent to parent, and the first frame that binds it
is the one that counts (`Nearest`).

The main result, `operations_scope_lexically`, holds of every store that operations lead to from the
empty one. Its parents are those that the frames were made with, and going outward comes to an end;
and whoever binds a name or assigns to it through one frame changes what is seen through just those
other frames that look there. The store keeps with a frame the list of all frames around it. That
this list is what one comes by on going from parent to parent (`Nested`) is what every operation
preserves.
-/

namespace LetLambda

/-- What can be done with frames. -/
inductive Operation where
  /-- Make a frame that stands alone. -/
  | fresh
  /-- Make a frame inside frame `f`. -/
  | extend (f : FrameId)
  /-- Bind a name in frame `f`. -/
  | define (f : FrameId) (x : Name) (v : Value)
  /-- Bind the own name of a function in frame `f`. -/
  | defineSelf (f : FrameId) (lambda : Lambda)
  /-- Assign to a name seen from frame `f`. -/
  | set (f : FrameId) (x : Name) (v : Value)

/-- The frame that an operation is done through. -/
def Operation.frame? : Operation → Option FrameId
  | fresh => none
  | extend f | define f _ _ | defineSelf f _ | set f _ _ => some f

namespace Store

/-! ### Operations and frames -/

/-- The store after an operation. An assignment that fails leaves it as it is. -/
def after (s : Store) : Operation → Store
  | .fresh => s.fresh.2
  | .extend f => (s.extend f).2
  | .define f x v => s.define f x v
  | .defineSelf f lambda => s.defineSelf f lambda
  | .set f x v => (s.set? f x v).getD s

/-- The store after some operations. -/
def afterAll (s : Store) : List Operation → Store
  | [] => s
  | op :: ops => (s.after op).afterAll ops

/-- Operations are done through frames that are there. -/
def admits (s : Store) : List Operation → Bool
  | [] => true
  | op :: ops => op.frame?.all (· < s.frames.size) && (s.after op).admits ops

/-- The frame directly around a frame. -/
def parent? (s : Store) (f : FrameId) : Option FrameId := (s.outer f).head?

/-- Frame `g` is frame `f` or stands around it. -/
inductive Around (s : Store) : FrameId → FrameId → Prop
  | here (f : FrameId) : s.Around f f
  | outward {f p g : FrameId} (hp : s.parent? f = some p) (h : s.Around p g) : s.Around f g

/-- Going outward from frame `f`, one comes to frame `g` before any other frame that binds `x`. -/
inductive Reaches (s : Store) (x : Name) : FrameId → FrameId → Prop
  | here (f : FrameId) : s.Reaches x f f
  | outward {f p g : FrameId} (hx : s.slot? f x = none) (hp : s.parent? f = some p)
    (h : s.Reaches x p g) : s.Reaches x f g

/-- Frame `g` is the nearest one from frame `f` outward that binds `x`. -/
def Nearest (s : Store) (x : Name) (f g : FrameId) : Prop :=
  s.Reaches x f g ∧ (s.slot? g x).isSome

/-- What is seen of names in the store `s'` is what was seen in `s`, but that `x` is now `v` for
those frames that have the property `affected`. -/
structure Changes (s : Store) (x : Name) (v : Value) (affected : FrameId → Prop) (s' : Store) :
    Prop where
  becomes : ∀ g, affected g → s'.lookup? g x = some v
  elsewhere : ∀ g, ¬ affected g → s'.lookup? g x = s.lookup? g x
  others : ∀ g y, y ≠ x → s'.lookup? g y = s.lookup? g y

/-- The laws of scoping. -/
structure LexicallyScoped (s : Store) : Prop where
  /-- Going outward comes to an end. -/
  ends : WellFounded fun p f => s.parent? f = some p
  /-- A frame is made empty, with no parent. -/
  fresh : s.fresh.2.parent? s.fresh.1 = none ∧ ∀ x, s.fresh.2.slot? s.fresh.1 x = none
  /-- Or with the parent that it is made in. -/
  extend : ∀ f < s.frames.size, (s.extend f).2.parent? (s.extend f).1 = some f ∧
    ∀ x, (s.extend f).2.slot? (s.extend f).1 x = none
  /-- What is read is the slot of the nearest frame. -/
  lookup : ∀ f x v, s.lookup? f x = some v ↔
    ∃ g slot, s.Nearest x f g ∧ s.slot? g x = some slot ∧ slot.read g = v
  /-- An assignment fails just if no frame binds the name, and then changes nothing. -/
  set_none : ∀ f x v, (s.set? f x v = none ↔ ∀ g, s.Around f g → s.slot? g x = none) ∧
    (s.set? f x v = none → s.after (.set f x v) = s)
  /-- Else it is seen by those who look for the name in the same frame. -/
  set_some : ∀ f x v s', s.set? f x v = some s' →
    s.Changes x v (fun g => ∃ h, s.Nearest x f h ∧ s.Nearest x g h) s'
  /-- A binding is seen by those who come to its frame first. -/
  define : ∀ f < s.frames.size, ∀ x v,
    s.Changes x v (fun g => s.Reaches x g f) (s.define f x v)
  /-- The own name of a function is bound to the function over the frame itself. -/
  defineSelf : ∀ f < s.frames.size, ∀ (lambda : Lambda) x, lambda.name? = some x →
    s.Changes x (.closure lambda f) (fun g => s.Reaches x g f) (s.defineSelf f lambda)

/-! ### What an operation does to frames -/

variable {s s' : Store} {f g p : FrameId} {x y : Name} {v : Value} {slot : Slot}

theorem outer_of_le (h : s.frames.size ≤ f) : s.outer f = [] := by
  rw [outer, Array.getElem?_eq_none h]

theorem lt_of_slot? (h : (s.slot? f x).isSome) : f < s.frames.size := by
  have hscene : (s.scene.slot f x).isSome := by rwa [scene_slot, Option.isSome_map]
  exact lt_of_isSome_slot hscene

theorem outer_push (frame : Frame) :
    (Store.mk (s.frames.push frame)).outer g =
      if g = s.frames.size then frame.outer else s.outer g := by
  simp only [outer, Array.getElem?_push]
  by_cases hg : g = s.frames.size <;> simp [hg]

theorem slot?_push (frame : Frame) :
    (Store.mk (s.frames.push frame)).slot? g x =
      if g = s.frames.size then frame.slot? x else s.slot? g x := by
  simp only [slot?, Array.getElem?_push]
  by_cases hg : g = s.frames.size <;> simp [hg]

@[simp]
theorem outer_fill : (s.fill f x slot).outer g = s.outer g := by
  simp only [outer, fill, Array.getElem?_modify]
  by_cases hg : f = g
  · cases s.frames[g]? <;> simp [hg, Frame.bind]
  · simp [hg]

@[simp]
theorem parent?_fill : (s.fill f x slot).parent? g = s.parent? g := by
  rw [parent?, outer_fill, parent?]

theorem slot?_fill (hf : f < s.frames.size) :
    (s.fill f x slot).slot? g y = if g = f ∧ y = x then some slot else s.slot? g y := by
  simp only [slot?, fill, Array.getElem?_modify]
  by_cases hg : f = g
  · subst hg
    by_cases hy : y = x <;>
      simp [Frame.bind, Frame.slot?, Frame.lookup_insert, Array.getElem?_eq_getElem hf, hy]
  · simp [hg, Ne.symm hg]

theorem slot?_fill_of_ne (hf : f < s.frames.size) (h : g ≠ f) :
    (s.fill f x slot).slot? g y = s.slot? g y := by
  rw [slot?_fill hf, if_neg fun hg => h hg.1]

/-- The parent of a new frame, and of no other, comes from the operation. -/
theorem outer_after (s : Store) (op : Operation) (g : FrameId) :
    (s.after op).outer g = s.outer g ∨
      g = s.frames.size ∧ ((s.after op).outer g = [] ∨
        ∃ f, op.frame? = some f ∧ (s.after op).outer g = s.chain f) := by
  cases op with
  | fresh =>
    rw [after, Store.fresh, outer_push]
    split
    · next hg => exact .inr ⟨hg, .inl rfl⟩
    · exact .inl rfl
  | extend f =>
    rw [after, Store.extend, outer_push]
    split
    · next hg => exact .inr ⟨hg, .inr ⟨f, rfl, rfl⟩⟩
    · exact .inl rfl
  | define f x v => exact .inl outer_fill
  | defineSelf f lambda =>
    rw [after, Store.defineSelf]
    cases lambda.name? with
    | none => exact .inl rfl
    | some x => exact .inl outer_fill
  | set f x v =>
    rw [after, set?]
    cases s.resolve? f x with
    | none => exact .inl rfl
    | some h => exact .inl outer_fill

/-! ### Going outward -/

/-- The frames around a frame are those that one comes by on going from parent to parent. -/
def Nested (s : Store) : Prop := ∀ f, s.outer f = [] ∨ ∃ p < f, s.outer f = s.chain p

theorem nested_empty : empty.Nested := fun _ => .inl (outer_of_le (Nat.zero_le _))

/-- An operation preserves that frames are nested. -/
theorem Nested.after (hs : s.Nested) {op : Operation}
    (hop : op.frame?.all (· < s.frames.size) = true) : (s.after op).Nested := by
  -- The frames that are there keep what is around them.
  have hkeep : ∀ g < s.frames.size, (s.after op).outer g = s.outer g := fun g hg =>
    (s.outer_after op g).elim id fun h => absurd h.1 (Nat.ne_of_lt hg)
  have hchain : ∀ g < s.frames.size, (s.after op).chain g = s.chain g := fun g hg => by
    rw [chain, hkeep g hg, chain]
  intro g
  rcases s.outer_after op g with hg | ⟨rfl, hg | ⟨f, hf, hg⟩⟩
  · rw [hg]
    refine (hs g).imp id ?_
    rintro ⟨p, hp, hpg⟩
    have hlt : g < s.frames.size := by
      by_contra hle
      rw [outer_of_le (Nat.not_lt.mp hle)] at hpg
      cases hpg
    exact ⟨p, hp, by rw [hpg, hchain p (Nat.lt_trans hp hlt)]⟩
  · exact .inl hg
  · have hlt : f < s.frames.size := by simpa [hf] using hop
    exact .inr ⟨f, hlt, by rw [hg, hchain f hlt]⟩

theorem parent?_eq_none_iff : s.parent? f = none ↔ s.outer f = [] := List.head?_eq_none_iff

theorem Nested.outer_of_parent? (hs : s.Nested) (hp : s.parent? f = some p) :
    p < f ∧ s.outer f = s.chain p := by
  rcases hs f with hf | ⟨q, hq, hf⟩
  · rw [parent?, hf] at hp
    cases hp
  · rw [parent?, hf] at hp
    cases hp
    exact ⟨hq, hf⟩

/-- One looks for a name in a frame itself, and else goes on from its parent. -/
theorem Nested.resolve?_eq (hs : s.Nested) (f : FrameId) (x : Name) :
    s.resolve? f x =
      if (s.slot? f x).isSome then some f else (s.parent? f).bind fun p => s.resolve? p x := by
  rw [resolve?, chain, List.find?_cons]
  cases hslot : (s.slot? f x).isSome with
  | true => rfl
  | false =>
    cases hp : s.parent? f with
    | none =>
      rw [parent?_eq_none_iff.mp hp]
      rfl
    | some p =>
      rw [(hs.outer_of_parent? hp).2]
      rfl

/-- To prove something of every frame, one may use it of the frame's parent. -/
theorem Nested.induction (hs : s.Nested) {motive : FrameId → Prop}
    (h : ∀ f, (∀ p, s.parent? f = some p → motive p) → motive f) (f : FrameId) : motive f := by
  induction f using Nat.strongRecOn with
  | ind f ih => exact h f fun p hp => ih p (hs.outer_of_parent? hp).1

theorem Nested.mem_chain_iff (hs : s.Nested) : g ∈ s.chain f ↔ s.Around f g := by
  constructor
  · induction f using hs.induction with
    | h f ih =>
      intro hg
      rcases List.mem_cons.mp hg with rfl | hg
      · exact .here g
      · cases hp : s.parent? f with
        | none =>
          rw [parent?_eq_none_iff.mp hp] at hg
          cases hg
        | some p =>
          rw [(hs.outer_of_parent? hp).2] at hg
          exact .outward hp (ih p hp hg)
  · intro h
    induction h with
    | here f => exact List.mem_cons_self
    | outward hp h ih =>
      rw [chain, (hs.outer_of_parent? hp).2]
      exact List.mem_cons_of_mem _ ih

/-- No name is found that no frame around binds, and no other. -/
theorem Nested.resolve?_eq_none_iff (hs : s.Nested) :
    s.resolve? f x = none ↔ ∀ g, s.Around f g → s.slot? g x = none := by
  simp only [resolve?, List.find?_eq_none, hs.mem_chain_iff, Option.not_isSome_iff_eq_none]

/-- A name is found in the nearest frame. -/
theorem Nested.resolve?_eq_some_iff (hs : s.Nested) :
    s.resolve? f x = some g ↔ s.Nearest x f g := by
  constructor
  · intro h
    refine ⟨?_, List.find?_some (p := fun g => (s.slot? g x).isSome) h⟩
    induction f using hs.induction with
    | h f ih =>
      rw [hs.resolve?_eq] at h
      cases hx : s.slot? f x with
      | some slot =>
        rw [hx] at h
        cases h
        exact .here _
      | none =>
        rw [hx] at h
        obtain ⟨p, hp, hg⟩ := Option.bind_eq_some_iff.mp h
        exact .outward hx hp (ih p hp hg)
  · rintro ⟨h, hslot⟩
    induction h with
    | here f => rw [hs.resolve?_eq, if_pos hslot]
    | outward hx hp h ih =>
      rw [hs.resolve?_eq, hx, hp]
      exact ih hslot

theorem Nearest.unique (hs : s.Nested) {h h' : FrameId} (hn : s.Nearest x f h)
    (hn' : s.Nearest x f h') : h = h' := by
  have heq := (hs.resolve?_eq_some_iff.mpr hn).symm.trans (hs.resolve?_eq_some_iff.mpr hn')
  exact Option.some.inj heq

theorem Nested.lookup?_eq_some_iff (hs : s.Nested) :
    s.lookup? f x = some v ↔
      ∃ g slot, s.Nearest x f g ∧ s.slot? g x = some slot ∧ slot.read g = v := by
  simp only [← hs.resolve?_eq_some_iff]
  rw [lookup?]
  cases s.resolve? f x with
  | none => simp
  | some g => simp

/-! ### Binding a name -/

theorem Nested.fill (hs : s.Nested) : (s.fill f x slot).Nested := by
  intro g
  simpa only [outer_fill, chain] using hs g

theorem Nested.lookup?_of_slot? (hs : s.Nested) (hx : s.slot? f x = some slot) :
    s.lookup? f x = some (slot.read f) := by
  have hf : s.resolve? f x = some f := by rw [hs.resolve?_eq, hx]; rfl
  rw [lookup?, hf]
  simp [hx]

theorem Nested.lookup?_of_slot?_eq_none (hs : s.Nested) (hx : s.slot? f x = none) :
    s.lookup? f x = (s.parent? f).bind fun p => s.lookup? p x := by
  rw [lookup?, hs.resolve?_eq, hx]
  cases s.parent? f <;> rfl

/-- Names that are bound to the same in two stores with the same parents are seen alike. -/
theorem Nested.lookup?_congr (hs : s.Nested) (hs' : s'.Nested)
    (hparent : ∀ g, s'.parent? g = s.parent? g) (hslot : ∀ g, s'.slot? g x = s.slot? g x)
    (f : FrameId) : s'.lookup? f x = s.lookup? f x := by
  induction f using hs.induction with
  | h f ih =>
    cases hx : s.slot? f x with
    | some slot =>
      rw [hs.lookup?_of_slot? hx, hs'.lookup?_of_slot? ((hslot f).trans hx)]
    | none =>
      rw [hs.lookup?_of_slot?_eq_none hx, hs'.lookup?_of_slot?_eq_none ((hslot f).trans hx),
        hparent]
      cases hp : s.parent? f with
      | none => rfl
      | some p => exact ih p hp

theorem Nested.lookup?_fill_self (hs : s.Nested) (hf : f < s.frames.size) :
    (s.fill f x slot).lookup? f x = some (slot.read f) := by
  refine hs.fill.lookup?_of_slot? ?_
  rw [slot?_fill hf, if_pos ⟨rfl, rfl⟩]

/-- What is bound in a frame is seen by those who come to it first. -/
theorem Nested.changes_fill (hs : s.Nested) (hf : f < s.frames.size) (x : Name) (slot : Slot) :
    s.Changes x (slot.read f) (fun g => s.Reaches x g f) (s.fill f x slot) where
  becomes g hg := by
    induction hg with
    | here f => exact hs.lookup?_fill_self hf
    | @outward g p f hx hp h ih =>
      by_cases hgf : g = f
      · subst hgf
        exact hs.lookup?_fill_self hf
      · have hx' : (s.fill f x slot).slot? g x = none := (slot?_fill_of_ne hf hgf).trans hx
        rw [hs.fill.lookup?_of_slot?_eq_none hx', parent?_fill, hp]
        exact ih hf
  elsewhere g hg := by
    induction g using hs.induction with
    | h g ih =>
      have hgf : g ≠ f := by
        rintro rfl
        exact hg (.here g)
      have hslot : (s.fill f x slot).slot? g x = s.slot? g x := slot?_fill_of_ne hf hgf
      cases hx : s.slot? g x with
      | some old =>
        rw [hs.lookup?_of_slot? hx, hs.fill.lookup?_of_slot? (hslot.trans hx)]
      | none =>
        rw [hs.lookup?_of_slot?_eq_none hx, hs.fill.lookup?_of_slot?_eq_none (hslot.trans hx),
          parent?_fill]
        cases hp : s.parent? g with
        | none => rfl
        | some p => exact ih p hp fun h => hg (.outward hx hp h)
  others g y hy := by
    refine hs.lookup?_congr hs.fill (fun _ => parent?_fill) (fun g => ?_) g
    rw [slot?_fill hf, if_neg (fun h => hy h.2)]

/-! ### Assigning to a name -/

theorem set?_eq_none_iff : s.set? f x v = none ↔ s.resolve? f x = none := by
  rw [set?]
  cases s.resolve? f x <;> simp

theorem Nested.changes_set? (hs : s.Nested) (h : s.set? f x v = some s') :
    s.Changes x v (fun g => ∃ h, s.Nearest x f h ∧ s.Nearest x g h) s' := by
  cases hr : s.resolve? f x with
  | none => cases (set?_eq_none_iff.mpr hr).symm.trans h
  | some k =>
    have hset : s.set? f x v = some (s.define k x v) := by rw [set?, hr]
    cases hset.symm.trans h
    -- The frames that look for the name where `f` does are those that come to that frame first.
    have hnearest := hs.resolve?_eq_some_iff.mp hr
    have haffected : (fun g => ∃ h, s.Nearest x f h ∧ s.Nearest x g h) =
        fun g => s.Reaches x g k := by
      funext g
      refine propext ⟨?_, fun hg => ⟨k, hnearest, hg, hnearest.2⟩⟩
      rintro ⟨k', hf, hg⟩
      rw [hnearest.unique hs hf]
      exact hg.1
    rw [haffected]
    exact hs.changes_fill (lt_of_slot? hnearest.2) x (.value v)

/-! ### The laws -/

theorem Nested.lexicallyScoped (hs : s.Nested) : s.LexicallyScoped where
  ends := Subrelation.wf (fun hp => (hs.outer_of_parent? hp).1) Nat.lt_wfRel.wf
  fresh := by
    constructor
    · rw [parent?, fresh, outer_push, if_pos rfl]
      rfl
    · intro x
      rw [fresh, slot?_push, if_pos rfl]
      rfl
  extend f _ := by
    constructor
    · rw [parent?, extend, outer_push, if_pos rfl]
      rfl
    · intro x
      rw [extend, slot?_push, if_pos rfl]
      rfl
  lookup f x v := hs.lookup?_eq_some_iff
  set_none f x v := by
    refine ⟨set?_eq_none_iff.trans hs.resolve?_eq_none_iff, fun h => ?_⟩
    rw [Store.after, h]
    rfl
  set_some f x v s' := hs.changes_set?
  define f hf x v := hs.changes_fill hf x (.value v)
  defineSelf f hf lambda x hx := by
    rw [defineSelf, hx]
    exact hs.changes_fill hf x (.self lambda)

/-! ### Any number of operations -/

theorem size_le_after (s : Store) (op : Operation) : s.frames.size ≤ (s.after op).frames.size := by
  cases op with
  | fresh | extend f => simp [after, fresh, extend]
  | define f x v => simp [after, define, fill]
  | defineSelf f lambda =>
    rw [after, defineSelf]
    cases lambda.name? <;> simp [fill]
  | set f x v =>
    rw [after, set?]
    cases s.resolve? f x <;> simp [define, fill]

theorem parent?_after (op : Operation) (hf : f < s.frames.size) :
    (s.after op).parent? f = s.parent? f := by
  rcases s.outer_after op f with h | ⟨rfl, -⟩
  · rw [parent?, h, parent?]
  · exact absurd hf (Nat.lt_irrefl _)

theorem parent?_afterAll (ops : List Operation) (hf : f < s.frames.size) :
    (s.afterAll ops).parent? f = s.parent? f := by
  induction ops generalizing s with
  | nil => rfl
  | cons op ops ih =>
    rw [afterAll, ih (Nat.lt_of_lt_of_le hf (s.size_le_after op)), parent?_after op hf]

theorem Nested.afterAll (hs : s.Nested) {ops : List Operation} (h : s.admits ops = true) :
    (s.afterAll ops).Nested := by
  induction ops generalizing s with
  | nil => exact hs
  | cons op ops ih =>
    rw [admits, Bool.and_eq_true] at h
    exact ih (hs.after h.1) h.2

theorem afterAll_append (s : Store) (ops later : List Operation) :
    s.afterAll (ops ++ later) = (s.afterAll ops).afterAll later := by
  induction ops generalizing s with
  | nil => rfl
  | cons op ops ih => exact ih _

theorem admits_of_append {ops later : List Operation} (h : s.admits (ops ++ later) = true) :
    s.admits ops = true := by
  induction ops generalizing s with
  | nil => rfl
  | cons op ops ih =>
    rw [List.cons_append, admits, Bool.and_eq_true] at h
    rw [admits, Bool.and_eq_true]
    exact ⟨h.1, ih h.2⟩

/-- **Frames are scoped lexically**, whatever operations have been done on them, and operations that
follow leave every frame the parent that it has. -/
theorem operations_scope_lexically (ops later : List Operation)
    (h : empty.admits (ops ++ later) = true) :
    (empty.afterAll ops).LexicallyScoped ∧
      ∀ f < (empty.afterAll ops).frames.size,
        (empty.afterAll (ops ++ later)).parent? f = (empty.afterAll ops).parent? f := by
  refine ⟨(nested_empty.afterAll (admits_of_append h)).lexicallyScoped, fun f hf => ?_⟩
  rw [afterAll_append]
  exact parent?_afterAll later hf

/-- The function `f`, which calls itself. -/
def caller : Lambda := ⟨0, some "f", [], .call (.var "f") []⟩

/-- Two frames in one that binds `x`, the first of them with a function of its own and a frame
inside it. -/
def kindred : List Operation :=
  [.fresh, .define 0 "x" (.int 1), .extend 0, .extend 0, .defineSelf 1 caller, .extend 1]

/-- Assignments through the innermost frame, one of them to the function's own name, and one
through the other. -/
def dealings : List Operation := [.set 3 "x" (.int 5), .set 3 "f" (.int 7), .set 2 "x" (.int 6)]

theorem operations_scope_lexically_kindred :
    empty.admits (kindred ++ dealings) = true ∧
      (empty.afterAll kindred).lookup? 3 "f" = some (.closure caller 1) ∧
      ∃ s', (empty.afterAll kindred).set? 3 "x" (.int 5) = some s' ∧
        s'.lookup? 2 "x" = some (.int 5) := by
  have hadmits : empty.admits (kindred ++ dealings) = true := by decide +kernel
  obtain ⟨laws, -⟩ := operations_scope_lexically kindred dealings hadmits
  -- Both frames look for `x` in the outermost one.
  have hinner : (empty.afterAll kindred).Nearest "x" 3 0 :=
    ⟨.outward rfl rfl (.outward rfl rfl (.here 0)), rfl⟩
  have hother : (empty.afterAll kindred).Nearest "x" 2 0 := ⟨.outward rfl rfl (.here 0), rfl⟩
  have hself : (empty.afterAll kindred).Nearest "f" 3 1 := ⟨.outward rfl rfl (.here 1), rfl⟩
  refine ⟨hadmits, (laws.lookup 3 "f" _).mpr ⟨1, .self caller, hself, rfl, rfl⟩, _, rfl, ?_⟩
  exact (laws.set_some 3 "x" (.int 5) _ rfl).becomes 2 ⟨0, hinner, hother⟩

end Store

end LetLambda
