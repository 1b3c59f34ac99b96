import LetLambda.Proofs.Names
import LetLambda.Term.Purity
import LetLambda.Term.Validity

/-!
# Order-safe trees

A transform moves the work of some operands in front of others: a call or a conditional among the
operands of a node is done first, and what is left of the operands before it waits. A tree is
order-safe if nobody can tell. Of two operands of one node, the first neither assigns nor reads a
name that is assigned anywhere if the second is not pure (`Undisturbed`), and the first does not
assign if a conditional or a `let` of the second reads such a name (`Settled`).

Function literals are looked into for the nodes that they hold, but what an operand does is what it
does outside the bodies of its literals.
-/

namespace LetLambda

namespace Term

/-! ### The parts of a tree -/

mutual

/-- The parts of a tree, itself included; those in the bodies of function literals too if `deep`. -/
def parts (deep : Bool) : Tree → List Tree
  | int n => [int n]
  | str s => [str s]
  | bool b => [bool b]
  | var x => [var x]
  | assign target value => assign target value :: (target.parts deep ++ value.parts deep)
  | binary op left right => binary op left right :: (left.parts deep ++ right.parts deep)
  | negate body => negate body :: body.parts deep
  | seq items => seq items :: partsAll deep items
  | call callee args => call callee args :: (callee.parts deep ++ partsAll deep args)
  | function i name? params body =>
    function i name? params body :: if deep then body.parts deep else []
  | conditional test consequent none =>
    conditional test consequent none :: (test.parts deep ++ consequent.parts deep)
  | conditional test consequent (some alternative) =>
    conditional test consequent (some alternative) ::
      (test.parts deep ++ (consequent.parts deep ++ alternative.parts deep))
  | declare bindings body =>
    declare bindings body :: (partsBindings deep bindings ++ body.parts deep)
termination_by structural t => t

/-- The parts of trees. -/
def partsAll (deep : Bool) : List Tree → List Tree
  | [] => []
  | t :: ts => t.parts deep ++ partsAll deep ts
termination_by structural ts => ts

/-- The parts of definitions. -/
def partsBindings (deep : Bool) : List (Binding Tree) → List Tree
  | [] => []
  | ⟨_, none⟩ :: bs => partsBindings deep bs
  | ⟨_, some t⟩ :: bs => t.parts deep ++ partsBindings deep bs
termination_by structural bs => bs

end

/-- All parts of a tree. -/
def subterms (t : Tree) : List Tree := t.parts true

/-- The parts of a tree outside the bodies of its function literals. -/
def surface (t : Tree) : List Tree := t.parts false

/-- The operands of an operator or of a call, in the order in which they are evaluated. -/
def operands : Tree → List Tree
  | binary _ left right => [left, right]
  | call callee args => callee :: args
  | _ => []

/-- The names that stand at a tree itself. -/
def ownNames : Tree → List Name
  | var x => [x]
  | function _ name? params _ => name?.toList ++ params
  | declare bindings _ => bindings.map (·.name)
  | _ => []

/-- The name to which a tree itself assigns. -/
def assigned? : Tree → Option Name
  | assign (var x) _ => some x
  | _ => none

/-- Whether a tree is an assignment. -/
def isAssignment : Tree → Bool
  | assign .. => true
  | _ => false

/-- Whether a tree is a conditional or a `let`. -/
def isBlock : Tree → Bool
  | conditional .. | declare .. => true
  | _ => false

/-- The names that are assigned anywhere in a tree. -/
def mutated (t : Tree) : List Name := t.subterms.filterMap assigned?

/-- The variables of a tree outside the bodies of its function literals. -/
def reads (t : Tree) : List Name := t.surface.filterMap asVariable?

/-- Whether a tree holds an assignment outside the bodies of its function literals. -/
def assigns (t : Tree) : Bool := t.surface.any isAssignment

/-- Whether a tree, outside the bodies of its function literals, reads no name of `names`. -/
def blind (names : List Name) (t : Tree) : Bool := t.reads.all fun x => x ∉ names

/-- Whether a tree, outside the bodies of its function literals, neither assigns nor reads a name
of `names`. -/
def quiet (names : List Name) (t : Tree) : Bool := !t.assigns && t.blind names

/-- Whether no conditional and no `let` of a tree, outside the bodies of its function literals,
reads a name of `names`. -/
def steady (names : List Name) (t : Tree) : Bool :=
  t.surface.all fun s => !s.isBlock || s.blind names

theorem reads_conditional (test consequent alternative : Tree) :
    (conditional test consequent (some alternative)).reads =
      test.reads ++ (consequent.reads ++ alternative.reads) :=
  (List.filterMap_append (l := test.surface)).trans
    (congrArg (test.reads ++ ·) List.filterMap_append)

theorem reads_conditional_none (test consequent : Tree) :
    (conditional test consequent none).reads = test.reads ++ consequent.reads :=
  List.filterMap_append

theorem reads_declare_cons (x : Name) (t : Tree) (bs : List (Binding Tree)) (body : Tree) :
    (declare (⟨x, some t⟩ :: bs) body).reads = t.reads ++ (declare bs body).reads := by
  have h : (declare (⟨x, some t⟩ :: bs) body).reads =
      (t.surface ++ partsBindings false bs ++ body.surface).filterMap asVariable? := rfl
  rw [h, List.append_assoc, List.filterMap_append]
  rfl

theorem reads_subset {s t : Tree} (h : s.surface ⊆ t.surface) : s.reads ⊆ t.reads := by
  intro x hx
  obtain ⟨u, hu, hux⟩ := List.mem_filterMap.mp hx
  exact List.mem_filterMap.mpr ⟨u, h hu, hux⟩

theorem allPure_eq_all (ts : List Tree) : allPure ts = ts.all isPure := by
  induction ts with
  | nil => rfl
  | cons t ts ih => rw [allPure, ih, List.all_cons]

mutual

/-- A pure tree holds no assignment outside the bodies of its function literals. -/
theorem not_isAssignment_of_isPure (t : Tree) (h : t.isPure = true) :
    ∀ s ∈ t.parts false, s.isAssignment = false := by
  cases t with
  | int n | str s | bool b | var x | function i name? params body => simp [parts, isAssignment]
  | assign target value => cases h
  | call callee args => cases h
  | negate body =>
    exact List.forall_mem_cons.mpr ⟨rfl, not_isAssignment_of_isPure body h⟩
  | binary op left right =>
    obtain ⟨hl, hr⟩ := Bool.and_eq_true_iff.mp h
    refine List.forall_mem_cons.mpr ⟨rfl, List.forall_mem_append.mpr ⟨?_, ?_⟩⟩
    · exact not_isAssignment_of_isPure left hl
    · exact not_isAssignment_of_isPure right hr
  | seq items => exact List.forall_mem_cons.mpr ⟨rfl, not_isAssignment_of_allPure items h⟩
  | conditional test consequent alternative? =>
    cases alternative? with
    | none =>
      obtain ⟨ht, hc⟩ := Bool.and_eq_true_iff.mp h
      refine List.forall_mem_cons.mpr ⟨rfl, List.forall_mem_append.mpr ⟨?_, ?_⟩⟩
      · exact not_isAssignment_of_isPure test ht
      · exact not_isAssignment_of_isPure consequent hc
    | some alternative =>
      obtain ⟨h, ha⟩ := Bool.and_eq_true_iff.mp h
      obtain ⟨ht, hc⟩ := Bool.and_eq_true_iff.mp h
      refine List.forall_mem_cons.mpr ⟨rfl, List.forall_mem_append.mpr ⟨?_,
        List.forall_mem_append.mpr ⟨?_, ?_⟩⟩⟩
      · exact not_isAssignment_of_isPure test ht
      · exact not_isAssignment_of_isPure consequent hc
      · exact not_isAssignment_of_isPure alternative ha
  | declare bindings body =>
    obtain ⟨hs, hb⟩ := Bool.and_eq_true_iff.mp h
    refine List.forall_mem_cons.mpr ⟨rfl, List.forall_mem_append.mpr ⟨?_, ?_⟩⟩
    · exact not_isAssignment_of_bindingsPure bindings hs
    · exact not_isAssignment_of_isPure body hb
termination_by structural t

theorem not_isAssignment_of_allPure (ts : List Tree) (h : allPure ts = true) :
    ∀ s ∈ partsAll false ts, s.isAssignment = false := by
  cases ts with
  | nil => exact nofun
  | cons t ts =>
    obtain ⟨ht, hs⟩ := Bool.and_eq_true_iff.mp h
    refine List.forall_mem_append.mpr ⟨?_, ?_⟩
    · exact not_isAssignment_of_isPure t ht
    · exact not_isAssignment_of_allPure ts hs
termination_by structural ts

theorem not_isAssignment_of_bindingsPure (bs : List (Binding Tree))
    (h : bindingsPure bs = true) : ∀ s ∈ partsBindings false bs, s.isAssignment = false := by
  cases bs with
  | nil => exact nofun
  | cons b bs =>
    cases b with
    | mk x t? =>
      cases t? with
      | none => exact not_isAssignment_of_bindingsPure bs h
      | some t =>
        obtain ⟨ht, hs⟩ := Bool.and_eq_true_iff.mp h
        refine List.forall_mem_append.mpr ⟨?_, ?_⟩
        · exact not_isAssignment_of_isPure t ht
        · exact not_isAssignment_of_bindingsPure bs hs
termination_by structural bs

end

end Term

/-! ### Order-safety -/

/-- What an operand does cannot be told from what a later operand does: the later one is pure, or
the earlier one has nothing to do with the names that are assigned. -/
def Undisturbed (names : List Name) (earlier later : Tree) : Bool :=
  later.isPure || earlier.quiet names

/-- An assignment in an operand is not overtaken by a conditional or a `let` in a later one that
could tell. -/
def Settled (names : List Name) (earlier later : Tree) : Bool :=
  !earlier.assigns || later.steady names

/-- A tree does not itself bind or read a generated name, and it is no assignment to anything but a
variable. -/
structure Plain (s : Tree) : Prop where
  ordinary : ∀ x ∈ s.ownNames, ¬ Symbols.Generated x
  target : s.isAssignment = true → s.assigned?.isSome = true

instance (s : Tree) : Decidable (Plain s) :=
  decidable_of_iff ((∀ x ∈ s.ownNames, ¬ Symbols.Generated x) ∧
    (s.isAssignment = true → s.assigned?.isSome = true)) ⟨fun h => ⟨h.1, h.2⟩, fun h => ⟨h.1, h.2⟩⟩

/-- A well-formed tree without generated names whose assignments are to variables. -/
structure Tame (t : Tree) : Prop where
  plain : ∀ s ∈ t.subterms, Plain s
  check : t.check = .ok ()

/-- A tame tree in which the operands of every node can be told apart as said above. -/
structure OrderSafe (t : Tree) : Prop extends Tame t where
  undisturbed : ∀ s ∈ t.subterms, s.operands.Pairwise fun a b => Undisturbed t.mutated a b = true
  settled : ∀ s ∈ t.subterms, s.operands.Pairwise fun a b => Settled t.mutated a b = true

/-! ### What holds of every part -/

namespace Term

variable {deep : Bool} {own own' below below' : List Tree}

/-- The parts `own` are among `below`, and so are the parts of `below`. -/
structure PartsWithin (deep : Bool) (own below : List Tree) : Prop where
  own : own ⊆ below
  parts : ∀ s ∈ below, s.parts deep ⊆ below

theorem PartsWithin.nil : PartsWithin deep [] [] := ⟨List.nil_subset _, nofun⟩

theorem PartsWithin.append (h : PartsWithin deep own below) (h' : PartsWithin deep own' below') :
    PartsWithin deep (own ++ own') (below ++ below') := by
  refine ⟨List.append_subset.mpr ⟨List.subset_append_of_subset_left _ h.own,
    List.subset_append_of_subset_right _ h'.own⟩, List.forall_mem_append.mpr ⟨?_, ?_⟩⟩
  · exact fun s hs => List.subset_append_of_subset_left _ (h.parts s hs)
  · exact fun s hs => List.subset_append_of_subset_right _ (h'.parts s hs)

theorem PartsWithin.cons {t : Tree} (h : PartsWithin deep own below)
    (ht : t.parts deep = t :: own) : PartsWithin deep (t :: own) (t :: below) := by
  have hown : t :: own ⊆ t :: below := List.cons_subset_cons t h.own
  refine ⟨hown, List.forall_mem_cons.mpr ⟨ht ▸ hown, fun s hs => ?_⟩⟩
  exact List.subset_cons_of_subset t (h.parts s hs)

mutual

/-- A part of a part of a tree is a part of it. -/
theorem partsWithin {deep deep' : Bool} (h : deep = true → deep' = true) (t : Tree) :
    PartsWithin deep (t.parts deep) (t.parts deep') := by
  cases t with
  | int n => exact .cons .nil rfl
  | str s => exact .cons .nil rfl
  | bool b => exact .cons .nil rfl
  | var x => exact .cons .nil rfl
  | assign target value => exact .cons ((partsWithin h target).append (partsWithin h value)) rfl
  | binary op left right => exact .cons ((partsWithin h left).append (partsWithin h right)) rfl
  | negate body => exact .cons (partsWithin h body) rfl
  | seq items => exact .cons (partsWithin_all h items) rfl
  | call callee args => exact .cons ((partsWithin h callee).append (partsWithin_all h args)) rfl
  | function i name? params body =>
    refine .cons ?_ rfl
    cases deep' with
    | false =>
      rw [Bool.eq_false_iff.mpr (mt h Bool.false_ne_true)]
      exact .nil
    | true =>
      refine ⟨?_, (partsWithin h body).parts⟩
      split
      · exact (partsWithin h body).own
      · exact List.nil_subset _
  | conditional test consequent alternative? =>
    cases alternative? with
    | none => exact .cons ((partsWithin h test).append (partsWithin h consequent)) rfl
    | some alternative =>
      exact .cons ((partsWithin h test).append
        ((partsWithin h consequent).append (partsWithin h alternative))) rfl
  | declare bindings body =>
    exact .cons ((partsWithin_bindings h bindings).append (partsWithin h body)) rfl
termination_by structural t

theorem partsWithin_all {deep deep' : Bool} (h : deep = true → deep' = true) (ts : List Tree) :
    PartsWithin deep (partsAll deep ts) (partsAll deep' ts) := by
  cases ts with
  | nil => exact .nil
  | cons t ts => exact (partsWithin h t).append (partsWithin_all h ts)
termination_by structural ts

theorem partsWithin_bindings {deep deep' : Bool} (h : deep = true → deep' = true)
    (bs : List (Binding Tree)) :
    PartsWithin deep (partsBindings deep bs) (partsBindings deep' bs) := by
  cases bs with
  | nil => exact .nil
  | cons b bs =>
    cases b with
    | mk x t? =>
      cases t? with
      | none => exact partsWithin_bindings h bs
      | some t => exact (partsWithin h t).append (partsWithin_bindings h bs)
termination_by structural bs

end

/-- What is seen of a part on the surface is seen of the tree. -/
theorem reads_subset_of_mem_surface {s t : Tree} (h : s ∈ t.surface) : s.reads ⊆ t.reads :=
  reads_subset ((partsWithin id t).parts s h)

theorem mem_partsAll {deep : Bool} {s : Tree} {ts : List Tree} :
    s ∈ partsAll deep ts ↔ ∃ t ∈ ts, s ∈ t.parts deep := by
  induction ts with
  | nil => simp [partsAll]
  | cons t ts ih => simp [partsAll, ih]

theorem self_mem_parts (deep : Bool) (t : Tree) : t ∈ t.parts deep := by
  cases t with
  | conditional test consequent alternative? => cases alternative? <;> simp [parts]
  | _ => simp [parts]

end Term

/-- `p` holds of every part of a tree. -/
def Throughout (p : Tree → Prop) (t : Tree) : Prop := ∀ s ∈ t.subterms, p s

namespace Throughout

open Term

variable {p q : Tree → Prop}

theorem self {t : Tree} (h : Throughout p t) : p t := h t (self_mem_parts true t)

theorem assign {target value : Tree} (h : Throughout p (.assign target value)) :
    Throughout p value :=
  fun s hs => h s (by simp [subterms, parts, show s ∈ parts true value from hs])

theorem negate {body : Tree} (h : Throughout p (.negate body)) : Throughout p body :=
  fun s hs => h s (by simp [subterms, parts, show s ∈ parts true body from hs])

theorem binary {op : String} {left right : Tree} (h : Throughout p (.binary op left right)) :
    Throughout p left ∧ Throughout p right :=
  ⟨fun s hs => h s (by simp [subterms, parts, show s ∈ parts true left from hs]),
    fun s hs => h s (by simp [subterms, parts, show s ∈ parts true right from hs])⟩

theorem seq {items : List Tree} (h : Throughout p (.seq items)) : ∀ t ∈ items, Throughout p t :=
  fun t ht s hs => h s (List.mem_cons_of_mem _ (mem_partsAll.mpr ⟨t, ht, hs⟩))

theorem call {callee : Tree} {args : List Tree} (h : Throughout p (.call callee args)) :
    ∀ t ∈ callee :: args, Throughout p t := by
  intro t ht s hs
  refine h s (List.mem_cons_of_mem _ (List.mem_append.mpr ?_))
  rcases List.mem_cons.mp ht with rfl | ht
  · exact .inl hs
  · exact .inr (mem_partsAll.mpr ⟨t, ht, hs⟩)

theorem function {i : Unit} {name? : Option Name} {params : List Name} {body : Tree}
    (h : Throughout p (.function i name? params body)) : Throughout p body :=
  fun s hs => h s (by simp [subterms, parts, show s ∈ parts true body from hs])

theorem conditional {test consequent : Tree} {alternative? : Option Tree}
    (h : Throughout p (.conditional test consequent alternative?)) :
    Throughout p test ∧ Throughout p consequent ∧
      ∀ alternative, alternative? = some alternative → Throughout p alternative := by
  cases alternative? with
  | none =>
    refine ⟨fun s hs => h s ?_, fun s hs => h s ?_, nofun⟩
    · simp [subterms, parts, show s ∈ parts true test from hs]
    · simp [subterms, parts, show s ∈ parts true consequent from hs]
  | some alternative =>
    refine ⟨fun s hs => h s ?_, fun s hs => h s ?_, ?_⟩
    · simp [subterms, parts, show s ∈ parts true test from hs]
    · simp [subterms, parts, show s ∈ parts true consequent from hs]
    · rintro _ ⟨⟩ s hs
      exact h s (by simp [subterms, parts, show s ∈ parts true alternative from hs])

end Throughout

/-- The names of bindings are ordinary, and `p` holds of every part of their definitions. -/
structure ThroughoutBindings (p : Tree → Prop) (bs : List (Binding Tree)) : Prop where
  ordinary : ∀ b ∈ bs, ¬ Symbols.Generated b.name
  parts : ∀ s ∈ Term.partsBindings true bs, p s

namespace ThroughoutBindings

open Term

variable {p : Tree → Prop} {bs : List (Binding Tree)} {x : Name}

theorem of_declare {body : Tree} (h : Throughout p (.declare bs body))
    (hnames : ∀ x ∈ (Term.declare bs body).ownNames, ¬ Symbols.Generated x) :
    ThroughoutBindings p bs ∧ Throughout p body := by
  refine ⟨⟨fun b hb => ?_, fun s hs => h s ?_⟩, fun s hs => h s ?_⟩
  · exact hnames _ (List.mem_map_of_mem hb)
  · simp [subterms, Term.parts, hs]
  · simp [subterms, Term.parts, show s ∈ Term.parts true body from hs]

theorem tail {b : Binding Tree} (h : ThroughoutBindings p (b :: bs)) :
    ThroughoutBindings p bs := by
  refine ⟨fun b hb => h.ordinary b (List.mem_cons_of_mem _ hb), fun s hs => h.parts s ?_⟩
  obtain ⟨x, t?⟩ := b
  cases t? <;> simp [partsBindings, hs]

theorem head {t : Tree} (h : ThroughoutBindings p (⟨x, some t⟩ :: bs)) : Throughout p t :=
  fun s hs => h.parts s (by simp [partsBindings, show s ∈ Term.parts true t from hs])

end ThroughoutBindings

/-- The operands of a part are parts. -/
theorem Term.mem_subterms_of_operands {s t u : Tree} (hs : s ∈ t.subterms) (hu : u ∈ s.operands) :
    u ∈ t.subterms := by
  refine (partsWithin id t).parts s hs ?_
  cases s with
  | binary op left right =>
    rcases List.mem_cons.mp hu with rfl | hu
    · exact List.mem_cons_of_mem _ (List.mem_append_left _ (self_mem_parts true u))
    · cases List.mem_singleton.mp hu
      exact List.mem_cons_of_mem _ (List.mem_append_right _ (self_mem_parts true u))
  | call callee args =>
    rcases List.mem_cons.mp hu with rfl | hu
    · exact List.mem_cons_of_mem _ (List.mem_append_left _ (self_mem_parts true u))
    · exact List.mem_cons_of_mem _ (List.mem_append_right _
        (mem_partsAll.mpr ⟨u, hu, self_mem_parts true u⟩))
  | _ => cases hu

/-- **A tame tree without assignments is order-safe.** -/
theorem Tame.orderSafe {t : Tree} (h : Tame t) (ht : ∀ s ∈ t.subterms, s.isAssignment = false) :
    OrderSafe t := by
  have hassigns : ∀ s ∈ t.subterms, s.assigns = false := by
    intro s hs
    have hsurface : s.surface ⊆ t.subterms := (Term.partsWithin (fun _ => rfl) t).parts s hs
    rw [Term.assigns, List.any_eq_false]
    intro u hu
    rw [ht u (hsurface hu)]
    exact Bool.false_ne_true
  have hmutated : t.mutated = [] := by
    refine List.filterMap_eq_nil_iff.mpr fun s hs => ?_
    cases s with
    | assign target value => cases ht _ hs
    | _ => rfl
  refine ⟨h, fun s hs => ?_, fun s hs => ?_⟩
  · refine List.pairwise_of_forall_mem_list fun a ha b hb => ?_
    simp [Undisturbed, Term.quiet, Term.blind, hmutated, hassigns a (Term.mem_subterms_of_operands hs ha)]
  · refine List.pairwise_of_forall_mem_list fun a ha b hb => ?_
    simp [Settled, hassigns a (Term.mem_subterms_of_operands hs ha)]

/-! ### Safe parts

Where a tree is order-safe, every part of it is safe with respect to the names that are assigned in
the whole. -/

/-- What order-safety says of a part itself. -/
structure Sound (names : List Name) (s : Tree) : Prop extends Plain s where
  assigned : ∀ x, s.assigned? = some x → x ∈ names
  apart : s.operands.Pairwise fun a b => Undisturbed names a b = true ∧ Settled names a b = true

/-- Every part of a tree is sound. -/
abbrev Safe (names : List Name) (t : Tree) : Prop := Throughout (Sound names) t

theorem OrderSafe.safe {t : Tree} (h : OrderSafe t) : Safe t.mutated t := by
  intro s hs
  refine ⟨h.plain s hs, fun x hx => List.mem_filterMap.mpr ⟨s, hs, hx⟩, ?_⟩
  exact (h.undisturbed s hs).and (h.settled s hs)

end LetLambda
