import LetLambda.EvalError
import LetLambda.Value

/-!
# Frames and the store

Names are bound in frames, and a frame stands inside others. All frames live in one store and
are known by their numbers, so that every function that was made in a frame sees what is
assigned there later.

A frame knows the frames around it, the nearest first; this never changes, and looking a name up
goes along that list.
-/

namespace LetLambda

/-- What a name is bound to in a frame. -/
inductive Slot where
  /-- A value. -/
  | value (v : Value)
  /-- The function whose own name this is, over the frame that holds the slot. -/
  | self (lambda : Lambda)

/-- What is read from a slot of frame `f`. -/
def Slot.read (f : FrameId) : Slot → Value
  | value v => v
  | self lambda => .closure lambda f

/-- A frame. -/
structure Frame where
  /-- The bindings, no name twice. -/
  slots : List (Name × Slot)
  /-- The frames around it, the nearest first. -/
  outer : List FrameId

namespace Frame

/-- Fills the slot of a name in a list of slots, or adds one. -/
def insert (x : Name) (slot : Slot) : List (Name × Slot) → List (Name × Slot)
  | [] => [(x, slot)]
  | (y, old) :: rest => if y = x then (y, slot) :: rest else (y, old) :: insert x slot rest

/-- Binds a name in place of what it was bound to. -/
def bind (x : Name) (slot : Slot) (frame : Frame) : Frame :=
  { frame with slots := insert x slot frame.slots }

/-- The slot of a name. -/
def slot? (frame : Frame) (x : Name) : Option Slot := frame.slots.lookup x

/-- The names bound in a frame. -/
def names (frame : Frame) : List Name := frame.slots.map (·.1)

/-- A frame as shown to people: its names in order, and whether it stands inside another. -/
def text (frame : Frame) : String :=
  let names := (frame.names.mergeSort (fun a b => decide (a ≤ b))).map Text.quoted
  "Environment \x7b names: [" ++ String.intercalate ", " names ++ "], has_parent: "
    ++ (if frame.outer.isEmpty then "false" else "true") ++ " \x7d"

end Frame

/-- All frames. -/
structure Store where
  /-- The frames, each at its number. -/
  frames : Array Frame

namespace Store

/-- The store without frames. -/
def empty : Store := ⟨#[]⟩

/-- The frames around a frame, the nearest first. -/
def outer (s : Store) (f : FrameId) : List FrameId :=
  match s.frames[f]? with
  | some frame => frame.outer
  | none => []

/-- The frames in which a name is looked up from frame `f`. -/
def chain (s : Store) (f : FrameId) : List FrameId := f :: s.outer f

/-- The slot of a name in a frame itself. -/
def slot? (s : Store) (f : FrameId) (x : Name) : Option Slot :=
  match s.frames[f]? with
  | some frame => frame.slot? x
  | none => none

/-- The nearest frame from `f` outward that binds a name. -/
def resolve? (s : Store) (f : FrameId) (x : Name) : Option FrameId :=
  (s.chain f).find? fun g => (s.slot? g x).isSome

/-- The value of a name seen from frame `f`. -/
def lookup? (s : Store) (f : FrameId) (x : Name) : Option Value :=
  match s.resolve? f x with
  | some g => (s.slot? g x).map (Slot.read g)
  | none => none

/-- The value of a name seen from frame `f`, or the error that there is none. -/
def get (s : Store) (f : FrameId) (x : Name) : Except EvalError Value :=
  match s.lookup? f x with
  | some v => .ok v
  | none => .error (.undefinedVariable x)

/-- A new frame that stands inside no other. -/
def fresh (s : Store) : FrameId × Store :=
  (s.frames.size, ⟨s.frames.push ⟨[], []⟩⟩)

/-- A new frame inside frame `f`. -/
def extend (s : Store) (f : FrameId) : FrameId × Store :=
  let outer := s.chain f
  (s.frames.size, ⟨s.frames.push ⟨[], outer⟩⟩)

/-- Fills the slot of a name in a frame itself. -/
def fill (s : Store) (f : FrameId) (x : Name) (slot : Slot) : Store :=
  ⟨s.frames.modify f (Frame.bind x slot)⟩

/-- Binds a name to a value in a frame itself. -/
def define (s : Store) (f : FrameId) (x : Name) (v : Value) : Store := s.fill f x (.value v)

/-- Binds the own name of a function in a frame itself. -/
def defineSelf (s : Store) (f : FrameId) (lambda : Lambda) : Store :=
  match lambda.name? with
  | some x => s.fill f x (.self lambda)
  | none => s

/-- Changes the value of a name where it is bound nearest. -/
def set? (s : Store) (f : FrameId) (x : Name) (v : Value) : Option Store :=
  match s.resolve? f x with
  | some g => some (s.define g x v)
  | none => none

/-- Binds parameters to arguments. A parameter without argument is `false`, and arguments beyond
the parameters are dropped. -/
def defineAll (s : Store) (f : FrameId) : List Name → List Value → Store
  | [], _ => s
  | x :: xs, [] => (s.define f x .absent).defineAll f xs []
  | x :: xs, v :: vs => (s.define f x v).defineAll f xs vs

/-- Whether a name is bound in a frame itself. -/
def definesLocally (s : Store) (f : FrameId) (x : Name) : Bool := (s.slot? f x).isSome

/-- A frame as shown to people. -/
def frameText (s : Store) (f : FrameId) : String :=
  match s.frames[f]? with
  | some frame => frame.text
  | none => Frame.text ⟨[], []⟩

end Store

end LetLambda
