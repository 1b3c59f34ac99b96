import LetLambda.Name

/-!
# Terms

The trees of the language. A function literal carries a mark of type `ι`: trees that were read,
written or transformed carry nothing (`Tree`), and trees that are about to run carry a number
that tells one occurrence of a literal from every other (`Code`).
-/

namespace LetLambda

/-- A name that a `let` introduces, with its definition if it has one. -/
structure Binding (τ : Type) where
  /-- The name. -/
  name : Name
  /-- The definition. -/
  value? : Option τ

/-- A tree whose function literals carry marks of type `ι`. -/
inductive Term (ι : Type) where
  | int (value : Int64)
  | str (value : String)
  | bool (value : Bool)
  | var (name : Name)
  | assign (target value : Term ι)
  | binary (operator : String) (left right : Term ι)
  | negate (body : Term ι)
  | seq (items : List (Term ι))
  | call (callee : Term ι) (args : List (Term ι))
  | function (mark : ι) (name? : Option Name) (params : List Name) (body : Term ι)
  | conditional (test consequent : Term ι) (alternative? : Option (Term ι))
  | declare (bindings : List (Binding (Term ι))) (body : Term ι)

/-- A tree without marks. -/
abbrev Tree := Term Unit

/-- A tree whose function literals are numbered. -/
abbrev Code := Term Nat

namespace Term

variable {ι : Type}

/-- The term that stands for every part left out. -/
def absent : Term ι := bool false

/-- The name of a variable. -/
def asVariable? : Term ι → Option Name
  | var x => some x
  | _ => none

/-- The word for the kind of a term. -/
def kind : Term ι → String
  | int _ => "integer"
  | str _ => "string"
  | bool _ => "boolean"
  | var _ => "variable"
  | assign .. => "assignment"
  | binary .. => "binary"
  | negate _ => "negation"
  | seq _ => "sequence"
  | call .. => "call"
  | function .. => "function"
  | conditional .. => "conditional"
  | declare .. => "let"

/-! ### Equality -/

mutual

/-- Whether two terms are the same tree. -/
def same [DecidableEq ι] : Term ι → Term ι → Bool
  | int a, int b => a = b
  | str a, str b => a = b
  | bool a, bool b => a = b
  | var x, var y => x = y
  | assign s a, assign t b => same s t && same a b
  | binary f a c, binary g b d => f = g && same a b && same c d
  | negate a, negate b => same a b
  | seq as, seq bs => sameAll as bs
  | call f as, call g bs => same f g && sameAll as bs
  | function i f ps a, function j g qs b => i = j && f = g && ps = qs && same a b
  | conditional s a none, conditional t b none => same s t && same a b
  | conditional s a (some c), conditional t b (some d) => same s t && same a b && same c d
  | declare as a, declare bs b => sameBindings as bs && same a b
  | _, _ => false
termination_by structural t => t

/-- Whether two lists hold the same trees. -/
def sameAll [DecidableEq ι] : List (Term ι) → List (Term ι) → Bool
  | [], [] => true
  | a :: as, b :: bs => same a b && sameAll as bs
  | _, _ => false
termination_by structural ts => ts

/-- Whether two lists hold the same bindings. -/
def sameBindings [DecidableEq ι] : List (Binding (Term ι)) → List (Binding (Term ι)) → Bool
  | [], [] => true
  | ⟨x, none⟩ :: as, ⟨y, none⟩ :: bs => x = y && sameBindings as bs
  | ⟨x, some a⟩ :: as, ⟨y, some b⟩ :: bs => x = y && same a b && sameBindings as bs
  | _, _ => false
termination_by structural bs => bs

end

mutual

theorem same_iff [DecidableEq ι] (a b : Term ι) : same a b = true ↔ a = b := by
  cases a with
  | int m => cases b <;> simp [same]
  | str s => cases b <;> simp [same]
  | bool p => cases b <;> simp [same]
  | var x => cases b <;> simp [same]
  | assign s t => cases b <;> simp [same, same_iff s, same_iff t]
  | binary op l r => cases b <;> simp [same, same_iff l, same_iff r, and_assoc]
  | negate t => cases b <;> simp [same, same_iff t]
  | seq ts => cases b <;> simp [same, sameAll_iff ts]
  | call f ts => cases b <;> simp [same, same_iff f, sameAll_iff ts]
  | function i f ps t => cases b <;> simp [same, same_iff t, and_assoc]
  | conditional c t e =>
    cases e with
    | none =>
      cases b with
      | conditional c' t' e' => cases e' <;> simp [same, same_iff c, same_iff t]
      | _ => simp [same]
    | some e =>
      cases b with
      | conditional c' t' e' =>
        cases e' <;> simp [same, same_iff c, same_iff t, same_iff e, and_assoc]
      | _ => simp [same]
  | declare bs t => cases b <;> simp [same, sameBindings_iff bs, same_iff t]
termination_by structural a

theorem sameAll_iff [DecidableEq ι] (as bs : List (Term ι)) : sameAll as bs = true ↔ as = bs := by
  cases as with
  | nil => cases bs <;> simp [sameAll]
  | cons a as => cases bs <;> simp [sameAll, same_iff a, sameAll_iff as]
termination_by structural as

theorem sameBindings_iff [DecidableEq ι] (as bs : List (Binding (Term ι))) :
    sameBindings as bs = true ↔ as = bs := by
  cases as with
  | nil => cases bs <;> simp [sameBindings]
  | cons a as =>
    cases a with
    | mk x a? =>
      cases a? with
      | none =>
        cases bs with
        | nil => simp [sameBindings]
        | cons b bs =>
          cases b with
          | mk y b? => cases b? <;> simp [sameBindings, sameBindings_iff as]
      | some a =>
        cases bs with
        | nil => simp [sameBindings]
        | cons b bs =>
          cases b with
          | mk y b? => cases b? <;> simp [sameBindings, same_iff a, sameBindings_iff as]
termination_by structural as

end

instance [DecidableEq ι] : DecidableEq (Term ι) := fun a b =>
  decidable_of_iff (same a b = true) (same_iff a b)

end Term

end LetLambda
