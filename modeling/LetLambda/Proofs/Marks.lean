import LetLambda.Term.Label
import LetLambda.Term.Validity

/-!
# The marks of a term

A numbered tree is the tree that it was made of, but for its marks (`erase`), and its marks are
the numbers that were given out, each once (`label_spec`).
-/

namespace LetLambda.Term

variable {ι : Type}

mutual

/-- The tree without its marks. -/
def erase : Term ι → Tree
  | int n => int n
  | str s => str s
  | bool b => bool b
  | var x => var x
  | assign target value => assign target.erase value.erase
  | binary op left right => binary op left.erase right.erase
  | negate body => negate body.erase
  | seq items => seq (eraseAll items)
  | call callee args => call callee.erase (eraseAll args)
  | function _ name? params body => function () name? params body.erase
  | conditional test consequent none => conditional test.erase consequent.erase none
  | conditional test consequent (some alternative) =>
    conditional test.erase consequent.erase (some alternative.erase)
  | declare bindings body => declare (eraseBindings bindings) body.erase
termination_by structural t => t

/-- The trees of a list without their marks. -/
def eraseAll : List (Term ι) → List Tree
  | [] => []
  | t :: ts => t.erase :: eraseAll ts
termination_by structural ts => ts

/-- The bindings of a list without their marks. -/
def eraseBindings : List (Binding (Term ι)) → List (Binding Tree)
  | [] => []
  | ⟨x, none⟩ :: bs => ⟨x, none⟩ :: eraseBindings bs
  | ⟨x, some t⟩ :: bs => ⟨x, some t.erase⟩ :: eraseBindings bs
termination_by structural bs => bs

end

mutual

/-- The marks of a tree, in the order in which its function literals begin. -/
def marks : Term ι → List ι
  | int _ | str _ | bool _ | var _ => []
  | assign target value => target.marks ++ value.marks
  | binary _ left right => left.marks ++ right.marks
  | negate body => body.marks
  | seq items => marksAll items
  | call callee args => callee.marks ++ marksAll args
  | function i _ _ body => i :: body.marks
  | conditional test consequent none => test.marks ++ consequent.marks
  | conditional test consequent (some alternative) =>
    test.marks ++ (consequent.marks ++ alternative.marks)
  | declare bindings body => marksBindings bindings ++ body.marks
termination_by structural t => t

/-- The marks of the trees of a list. -/
def marksAll : List (Term ι) → List ι
  | [] => []
  | t :: ts => t.marks ++ marksAll ts
termination_by structural ts => ts

/-- The marks of the definitions of bindings. -/
def marksBindings : List (Binding (Term ι)) → List ι
  | [] => []
  | ⟨_, none⟩ :: bs => marksBindings bs
  | ⟨_, some t⟩ :: bs => t.marks ++ marksBindings bs
termination_by structural bs => bs

end

theorem eraseAll_eq_map (ts : List (Term ι)) : eraseAll ts = ts.map erase := by
  induction ts with
  | nil => rfl
  | cons t ts ih => rw [eraseAll, ih, List.map_cons]

theorem marksAll_eq_flatMap (ts : List (Term ι)) : marksAll ts = ts.flatMap marks := by
  induction ts with
  | nil => rfl
  | cons t ts ih => rw [marksAll, ih, List.flatMap_cons]

/-! ### Trees have nothing to erase -/

mutual

@[simp]
theorem erase_tree (t : Tree) : t.erase = t := by
  cases t with
  | int n => rfl
  | str s => rfl
  | bool b => rfl
  | var x => rfl
  | assign target value => simp only [erase, erase_tree target, erase_tree value]
  | binary op left right => simp only [erase, erase_tree left, erase_tree right]
  | negate body => simp only [erase, erase_tree body]
  | seq items => simp only [erase, eraseAll_trees items]
  | call callee args => simp only [erase, erase_tree callee, eraseAll_trees args]
  | function i name? params body => simp only [erase, erase_tree body]
  | conditional test consequent alternative? =>
    cases alternative? with
    | none => simp only [erase, erase_tree test, erase_tree consequent]
    | some alternative =>
      simp only [erase, erase_tree test, erase_tree consequent, erase_tree alternative]
  | declare bindings body => simp only [erase, eraseBindings_trees bindings, erase_tree body]
termination_by structural t

@[simp]
theorem eraseAll_trees (ts : List Tree) : eraseAll ts = ts := by
  cases ts with
  | nil => rfl
  | cons t ts => simp only [eraseAll, erase_tree t, eraseAll_trees ts]
termination_by structural ts

@[simp]
theorem eraseBindings_trees (bs : List (Binding Tree)) : eraseBindings bs = bs := by
  cases bs with
  | nil => rfl
  | cons b bs =>
    obtain ⟨x, t?⟩ := b
    cases t? with
    | none => simp only [eraseBindings, eraseBindings_trees bs]
    | some t => simp only [eraseBindings, erase_tree t, eraseBindings_trees bs]
termination_by structural bs

end

/-! ### Terms with a given tree -/

/-- Terms and their trees. -/
inductive HaveTrees : List (Term ι) → List Tree → Prop
  | nil : HaveTrees [] []
  | cons {a : Term ι} {as : List (Term ι)} {t : Tree} {ts : List Tree} (ha : a.erase = t)
    (has : HaveTrees as ts) : HaveTrees (a :: as) (t :: ts)

/-- A term and its tree, from the parts up. -/
inductive HasTree : Term ι → Tree → Prop
  | int (n : Int64) : HasTree (int n) (int n)
  | str (s : String) : HasTree (str s) (str s)
  | bool (b : Bool) : HasTree (bool b) (bool b)
  | var (x : Name) : HasTree (var x) (var x)
  | assign {a b : Term ι} {s t : Tree} (ha : a.erase = s) (hb : b.erase = t) :
    HasTree (assign a b) (assign s t)
  | binary (op : String) {a b : Term ι} {s t : Tree} (ha : a.erase = s) (hb : b.erase = t) :
    HasTree (binary op a b) (binary op s t)
  | negate {a : Term ι} {t : Tree} (ha : a.erase = t) : HasTree (negate a) (negate t)
  | seq {as : List (Term ι)} {ts : List Tree} (has : HaveTrees as ts) : HasTree (seq as) (seq ts)
  | call {f : Term ι} {as : List (Term ι)} {t : Tree} {ts : List Tree} (hf : f.erase = t)
    (has : HaveTrees as ts) : HasTree (call f as) (call t ts)
  | function (i : ι) (name? : Option Name) (params : List Name) {a : Term ι} {t : Tree}
    (ha : a.erase = t) : HasTree (function i name? params a) (function () name? params t)
  | ifThen {a b : Term ι} {s t : Tree} (ha : a.erase = s) (hb : b.erase = t) :
    HasTree (conditional a b none) (conditional s t none)
  | ifThenElse {a b c : Term ι} {s t u : Tree} (ha : a.erase = s) (hb : b.erase = t)
    (hc : c.erase = u) : HasTree (conditional a b (some c)) (conditional s t (some u))
  | declare {bs : List (Binding (Term ι))} {a : Term ι} {cs : List (Binding Tree)} {t : Tree}
    (hbs : eraseBindings bs = cs) (ha : a.erase = t) : HasTree (declare bs a) (declare cs t)

theorem haveTrees_eraseAll (as : List (Term ι)) : HaveTrees as (eraseAll as) := by
  induction as with
  | nil => exact .nil
  | cons a as ih => exact .cons rfl ih

/-- What kind of term has a given tree. -/
theorem hasTree_of_erase_eq {m : Term ι} {t : Tree} (h : m.erase = t) : HasTree m t := by
  subst h
  cases m with
  | int n => exact .int n
  | str s => exact .str s
  | bool b => exact .bool b
  | var x => exact .var x
  | assign a b => exact .assign rfl rfl
  | binary op a b => exact .binary op rfl rfl
  | negate a => exact .negate rfl
  | seq as => exact .seq (haveTrees_eraseAll as)
  | call f as => exact .call rfl (haveTrees_eraseAll as)
  | function i name? params a => exact .function i name? params rfl
  | conditional a b c? =>
    cases c? with
    | none => exact .ifThen rfl rfl
    | some c => exact .ifThenElse rfl rfl rfl
  | declare bs a => exact .declare rfl rfl

/-- The last of several terms has the last of their trees. -/
theorem HaveTrees.of_append_singleton {as : List (Term ι)} {ts : List Tree} {t : Tree}
    (h : HaveTrees as (ts ++ [t])) :
    ∃ bs a, as = bs ++ [a] ∧ HaveTrees bs ts ∧ a.erase = t := by
  induction ts generalizing as with
  | nil =>
    cases h with
    | cons ha has => cases has; exact ⟨[], _, rfl, .nil, ha⟩
  | cons u ts ih =>
    cases h with
    | cons hb has =>
      obtain ⟨bs, a, rfl, hbs, ha⟩ := ih has
      exact ⟨_ :: bs, a, rfl, .cons hb hbs, ha⟩

/-! ### Marks do not make a term malformed -/

mutual

theorem check_erase (t : Term ι) : t.erase.check = t.check := by
  cases t with
  | int n => rfl
  | str s => rfl
  | bool b => rfl
  | var x => rfl
  | assign target value => simp only [erase, check, check_erase target, check_erase value]
  | binary op left right => simp only [erase, check, check_erase left, check_erase right]
  | negate body => simp only [erase, check, check_erase body]
  | seq items => simp only [erase, check, checkAll_erase items]
  | call callee args => simp only [erase, check, check_erase callee, checkAll_erase args]
  | function i name? params body => simp only [erase, check, check_erase body]
  | conditional test consequent alternative? =>
    cases alternative? with
    | none => simp only [erase, check, check_erase test, check_erase consequent]
    | some alternative =>
      simp only [erase, check, check_erase test, check_erase consequent, check_erase alternative]
  | declare bindings body => simp only [erase, check, checkBindings_erase bindings, check_erase body]
termination_by structural t

theorem checkAll_erase (ts : List (Term ι)) : checkAll (eraseAll ts) = checkAll ts := by
  cases ts with
  | nil => rfl
  | cons t ts => simp only [eraseAll, checkAll, check_erase t, checkAll_erase ts]
termination_by structural ts

theorem checkBindings_erase (bs : List (Binding (Term ι))) :
    checkBindings (eraseBindings bs) = checkBindings bs := by
  cases bs with
  | nil => rfl
  | cons b bs =>
    obtain ⟨x, t?⟩ := b
    cases t? with
    | none => simp only [eraseBindings, checkBindings, checkBindings_erase bs]
    | some t => simp only [eraseBindings, checkBindings, check_erase t, checkBindings_erase bs]
termination_by structural bs

end

/-! ### Numbering -/

/-- One numbering after another. -/
theorem run_bind_of_run {α β : Type} {x : StateM Nat α} {n m : Nat} {a : α} (h : x.run n = (a, m))
    (f : α → StateM Nat β) : (x >>= f).run n = (f a).run m := by
  rw [StateT.run_bind, h]
  rfl

mutual

/-- **The numbers of a tree.** Numbering changes only the marks; the marks are the numbers that
were given out, in order. -/
theorem label_spec (t : Tree) (n : Nat) :
    ∃ c d, t.label.run n = (c, n + d) ∧ c.erase = t ∧ c.marks = List.range' n d := by
  cases t with
  | int i => exact ⟨_, 0, rfl, rfl, rfl⟩
  | str s => exact ⟨_, 0, rfl, rfl, rfl⟩
  | bool b => exact ⟨_, 0, rfl, rfl, rfl⟩
  | var x => exact ⟨_, 0, rfl, rfl, rfl⟩
  | assign target value =>
    obtain ⟨a, d, ha, ea, ma⟩ := label_spec target n
    obtain ⟨b, e, hb, eb, mb⟩ := label_spec value (n + d)
    refine ⟨assign a b, d + e, ?_, by rw [erase, ea, eb], ?_⟩
    · rw [label, run_bind_of_run ha, run_bind_of_run hb, Nat.add_assoc]
      rfl
    · rw [marks, ma, mb, List.range'_append_1]
  | binary op left right =>
    obtain ⟨a, d, ha, ea, ma⟩ := label_spec left n
    obtain ⟨b, e, hb, eb, mb⟩ := label_spec right (n + d)
    refine ⟨binary op a b, d + e, ?_, by rw [erase, ea, eb], ?_⟩
    · rw [label, run_bind_of_run ha, run_bind_of_run hb, Nat.add_assoc]
      rfl
    · rw [marks, ma, mb, List.range'_append_1]
  | negate body =>
    obtain ⟨a, d, ha, ea, ma⟩ := label_spec body n
    refine ⟨negate a, d, ?_, by rw [erase, ea], by rw [marks, ma]⟩
    rw [label, run_bind_of_run ha]
    rfl
  | seq items =>
    obtain ⟨as, d, ha, ea, ma⟩ := labelAll_spec items n
    refine ⟨seq as, d, ?_, by rw [erase, ea], by rw [marks, ma]⟩
    rw [label, run_bind_of_run ha]
    rfl
  | call callee args =>
    obtain ⟨a, d, ha, ea, ma⟩ := label_spec callee n
    obtain ⟨bs, e, hb, eb, mb⟩ := labelAll_spec args (n + d)
    refine ⟨call a bs, d + e, ?_, by rw [erase, ea, eb], ?_⟩
    · rw [label, run_bind_of_run ha, run_bind_of_run hb, Nat.add_assoc]
      rfl
    · rw [marks, ma, mb, List.range'_append_1]
  | function i name? params body =>
    obtain ⟨a, d, ha, ea, ma⟩ := label_spec body (n + 1)
    refine ⟨function n name? params a, d + 1, ?_, by rw [erase, ea], ?_⟩
    · have hn : (modifyGet fun n => (n, n + 1) : StateM Nat Nat).run n = (n, n + 1) := rfl
      rw [label, run_bind_of_run hn, run_bind_of_run ha, Nat.add_right_comm]
      rfl
    · rw [marks, ma, List.range'_succ]
  | conditional test consequent alternative? =>
    obtain ⟨a, d, ha, ea, ma⟩ := label_spec test n
    obtain ⟨b, e, hb, eb, mb⟩ := label_spec consequent (n + d)
    cases alternative? with
    | none =>
      refine ⟨conditional a b none, d + e, ?_, by rw [erase, ea, eb], ?_⟩
      · rw [label, run_bind_of_run ha, run_bind_of_run hb, Nat.add_assoc]
        rfl
      · rw [marks, ma, mb, List.range'_append_1]
    | some alternative =>
      obtain ⟨c, f, hc, ec, mc⟩ := label_spec alternative (n + d + e)
      refine ⟨conditional a b (some c), d + (e + f), ?_, by rw [erase, ea, eb, ec], ?_⟩
      · rw [label, run_bind_of_run ha, run_bind_of_run hb, run_bind_of_run hc, Nat.add_assoc,
          Nat.add_assoc]
        rfl
      · rw [marks, ma, mb, mc, List.range'_append_1, List.range'_append_1]
  | declare bindings body =>
    obtain ⟨as, d, ha, ea, ma⟩ := labelBindings_spec bindings n
    obtain ⟨b, e, hb, eb, mb⟩ := label_spec body (n + d)
    refine ⟨declare as b, d + e, ?_, by rw [erase, ea, eb], ?_⟩
    · rw [label, run_bind_of_run ha, run_bind_of_run hb, Nat.add_assoc]
      rfl
    · rw [marks, ma, mb, List.range'_append_1]
termination_by structural t

theorem labelAll_spec (ts : List Tree) (n : Nat) :
    ∃ cs d, (labelAll ts).run n = (cs, n + d) ∧ eraseAll cs = ts ∧
      marksAll cs = List.range' n d := by
  cases ts with
  | nil => exact ⟨[], 0, rfl, rfl, rfl⟩
  | cons t ts =>
    obtain ⟨a, d, ha, ea, ma⟩ := label_spec t n
    obtain ⟨bs, e, hb, eb, mb⟩ := labelAll_spec ts (n + d)
    refine ⟨a :: bs, d + e, ?_, by rw [eraseAll, ea, eb], ?_⟩
    · rw [labelAll, run_bind_of_run ha, run_bind_of_run hb, Nat.add_assoc]
      rfl
    · rw [marksAll, ma, mb, List.range'_append_1]
termination_by structural ts

theorem labelBindings_spec (bs : List (Binding Tree)) (n : Nat) :
    ∃ cs d, (labelBindings bs).run n = (cs, n + d) ∧ eraseBindings cs = bs ∧
      marksBindings cs = List.range' n d := by
  cases bs with
  | nil => exact ⟨[], 0, rfl, rfl, rfl⟩
  | cons b bs =>
    obtain ⟨x, t?⟩ := b
    cases t? with
    | none =>
      obtain ⟨cs, e, hc, ec, mc⟩ := labelBindings_spec bs n
      refine ⟨⟨x, none⟩ :: cs, e, ?_, by rw [eraseBindings, ec], by rw [marksBindings, mc]⟩
      rw [labelBindings, run_bind_of_run hc]
      rfl
    | some t =>
      obtain ⟨a, d, ha, ea, ma⟩ := label_spec t n
      obtain ⟨cs, e, hc, ec, mc⟩ := labelBindings_spec bs (n + d)
      refine ⟨⟨x, some a⟩ :: cs, d + e, ?_, by rw [eraseBindings, ea, ec], ?_⟩
      · rw [labelBindings, run_bind_of_run ha, run_bind_of_run hc, Nat.add_assoc]
        rfl
      · rw [marksBindings, ma, mc, List.range'_append_1]
termination_by structural bs

end

end LetLambda.Term
