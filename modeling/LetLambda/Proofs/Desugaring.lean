import LetLambda.Proofs.Confinement
import Mathlib.Data.List.Perm.Subperm

/-!
# `let` written as calls

A binding of a `let` is a function of its name, applied at once to the definition: `desugar` writes
every `let` of a tree in this way. A tree is malformed just if it is malformed when so written
(`check_desugar_iff`), though another empty name may be met first.

`Recast` relates two numbered trees of which one is the other with its `let`s written as calls. It
is told from the parts up and goes both ways, since in a run neither of them comes first. Literals
that stand for each other are related by their numbers; the literals that were not there before
stand for nothing. A numbered tree is so related to any numbering of the tree that it is written as
(`exists_recast`).
-/

namespace LetLambda.Term

/-! ### Writing `let` as calls -/

mutual

/-- The tree with every `let` in it written as calls. -/
def desugar : Tree → Tree
  | int n => int n
  | str s => str s
  | bool b => bool b
  | var x => var x
  | assign target value => assign target.desugar value.desugar
  | binary op left right => binary op left.desugar right.desugar
  | negate body => negate body.desugar
  | seq items => seq (desugarAll items)
  | call callee args => call callee.desugar (desugarAll args)
  | function i name? params body => function i name? params body.desugar
  | conditional test consequent none => conditional test.desugar consequent.desugar none
  | conditional test consequent (some alternative) =>
    conditional test.desugar consequent.desugar (some alternative.desugar)
  | declare bindings body => desugarBindings bindings body.desugar
termination_by structural t => t

/-- The trees of a list with every `let` in them written as calls. -/
def desugarAll : List Tree → List Tree
  | [] => []
  | t :: ts => t.desugar :: desugarAll ts
termination_by structural ts => ts

/-- Bindings around a body that has no `let` any more: the first one is a function of its name,
applied to its definition, or to `false` if it has none. -/
def desugarBindings : List (Binding Tree) → Tree → Tree
  | [], body => body
  | ⟨x, none⟩ :: bs, body => call (function () none [x] (desugarBindings bs body)) [absent]
  | ⟨x, some t⟩ :: bs, body => call (function () none [x] (desugarBindings bs body)) [t.desugar]
termination_by structural bs => bs

end

/-! ### Malformed trees -/

theorem unlessNamed_eq_ok_iff (fault : Malformed) (x : Name) :
    fault.unlessNamed x = .ok () ↔ x ≠ "" := by
  by_cases hx : x = "" <;> simp [Malformed.unlessNamed, hx]

/-- A binding is as well named as the parameter that it becomes. -/
theorem check_binder_iff (x : Name) (inner : Tree) (args : List Tree) :
    (call (function () none [x] inner) args).check = .ok () ↔
      Malformed.bindingName.unlessNamed x = .ok () ∧ inner.check = .ok () ∧
        checkAll args = .ok () := by
  simp only [check, Malformed.checkFunctionName, Malformed.checkParams, Malformed.bind_eq_ok_iff,
    unlessNamed_eq_ok_iff, true_and, and_true, and_assoc]

mutual

/-- A tree has an empty name just if it has one with every `let` written as calls. -/
theorem check_desugar_iff (t : Tree) : t.desugar.check = .ok () ↔ t.check = .ok () := by
  cases t with
  | int n => rfl
  | str s => rfl
  | bool b => rfl
  | var x => rfl
  | assign target value =>
    simp only [desugar, check, Malformed.bind_eq_ok_iff, check_desugar_iff target,
      check_desugar_iff value]
  | binary op left right =>
    simp only [desugar, check, Malformed.bind_eq_ok_iff, check_desugar_iff left,
      check_desugar_iff right]
  | negate body => simp only [desugar, check, check_desugar_iff body]
  | seq items => simp only [desugar, check, checkAll_desugar_iff items]
  | call callee args =>
    simp only [desugar, check, Malformed.bind_eq_ok_iff, check_desugar_iff callee,
      checkAll_desugar_iff args]
  | function i name? params body =>
    simp only [desugar, check, Malformed.bind_eq_ok_iff, check_desugar_iff body]
  | conditional test consequent alternative? =>
    cases alternative? with
    | none =>
      simp only [desugar, check, Malformed.bind_eq_ok_iff, check_desugar_iff test,
        check_desugar_iff consequent]
    | some alternative =>
      simp only [desugar, check, Malformed.bind_eq_ok_iff, check_desugar_iff test,
        check_desugar_iff consequent, check_desugar_iff alternative]
  | declare bindings body =>
    rw [desugar, check_desugarBindings_iff bindings, check_desugar_iff body, check,
      Malformed.bind_eq_ok_iff]
termination_by structural t

theorem checkAll_desugar_iff (ts : List Tree) :
    checkAll (desugarAll ts) = .ok () ↔ checkAll ts = .ok () := by
  cases ts with
  | nil => rfl
  | cons t ts =>
    simp only [desugarAll, checkAll, Malformed.bind_eq_ok_iff, check_desugar_iff t,
      checkAll_desugar_iff ts]
termination_by structural ts

theorem check_desugarBindings_iff (bs : List (Binding Tree)) (body : Tree) :
    (desugarBindings bs body).check = .ok () ↔
      checkBindings bs = .ok () ∧ body.check = .ok () := by
  cases bs with
  | nil => simp only [desugarBindings, checkBindings, true_and]
  | cons b bs =>
    obtain ⟨x, t?⟩ := b
    cases t? with
    | none =>
      rw [desugarBindings, check_binder_iff, check_desugarBindings_iff bs, checkBindings,
        Malformed.bind_eq_ok_iff]
      simp only [checkAll, absent, check, Malformed.bind_eq_ok_iff, and_true, and_assoc]
    | some t =>
      rw [desugarBindings, check_binder_iff, check_desugarBindings_iff bs, checkBindings,
        Malformed.bind_eq_ok_iff, Malformed.bind_eq_ok_iff]
      simp only [checkAll, Malformed.bind_eq_ok_iff, check_desugar_iff t, and_true]
      exact ⟨fun ⟨hx, ⟨hbs, hbody⟩, ht⟩ => ⟨⟨hx, ht, hbs⟩, hbody⟩,
        fun ⟨⟨hx, ht, hbs⟩, hbody⟩ => ⟨hx, ⟨hbs, hbody⟩, ht⟩⟩
termination_by structural bs

end

/-! ### Trees that are the same but for their `let`s -/

/-- The second tree is the first with its `let`s written as calls if `forth`, and the first is the
second so written otherwise. The numbers of literals that stand for each other are related by `ρ`.
The items of lists are related as those of sequences. -/
inductive Recast (ρ : Nat → Nat → Prop) : Bool → Code → Code → Prop
  | int {forth : Bool} (n : Int64) : Recast ρ forth (int n) (int n)
  | str {forth : Bool} (s : String) : Recast ρ forth (str s) (str s)
  | bool {forth : Bool} (b : Bool) : Recast ρ forth (bool b) (bool b)
  | var {forth : Bool} (x : Name) : Recast ρ forth (var x) (var x)
  | assign {forth : Bool} (x : Name) {a b : Code} (h : Recast ρ forth a b) :
    Recast ρ forth (assign (var x) a) (assign (var x) b)
  | binary {forth : Bool} (op : String) {a b c d : Code} (hl : Recast ρ forth a b)
    (hr : Recast ρ forth c d) : Recast ρ forth (binary op a c) (binary op b d)
  | negate {forth : Bool} {a b : Code} (h : Recast ρ forth a b) :
    Recast ρ forth (negate a) (negate b)
  | nil {forth : Bool} : Recast ρ forth (seq []) (seq [])
  | cons {forth : Bool} {a b : Code} {as bs : List Code} (h : Recast ρ forth a b)
    (hs : Recast ρ forth (seq as) (seq bs)) : Recast ρ forth (seq (a :: as)) (seq (b :: bs))
  | call {forth : Bool} {f g : Code} {as bs : List Code} (h : Recast ρ forth f g)
    (hs : Recast ρ forth (seq as) (seq bs)) : Recast ρ forth (call f as) (call g bs)
  | function {forth : Bool} {i j : Nat} (hij : ρ i j) (name? : Option Name) (params : List Name)
    {a b : Code} (h : Recast ρ forth a b) :
    Recast ρ forth (function i name? params a) (function j name? params b)
  | ifThen {forth : Bool} {a b c d : Code} (ht : Recast ρ forth a b) (hc : Recast ρ forth c d) :
    Recast ρ forth (conditional a c none) (conditional b d none)
  | ifThenElse {forth : Bool} {a b c d e f : Code} (ht : Recast ρ forth a b)
    (hc : Recast ρ forth c d) (ha : Recast ρ forth e f) :
    Recast ρ forth (conditional a c (some e)) (conditional b d (some f))
  /-- A `let` without bindings is its body. -/
  | body {a b : Code} (h : Recast ρ true a b) : Recast ρ true (declare [] a) b
  /-- A binding is a function applied to the definition. -/
  | bind (j : Nat) (x : Name) {d? : Option Code} {bs : List (Binding Code)} {a b e : Code}
    (hd : Recast ρ true (d?.getD absent) e) (h : Recast ρ true (declare bs a) b) :
    Recast ρ true (declare (⟨x, d?⟩ :: bs) a) (call (function j none [x] b) [e])
  /-- The same the other way round. -/
  | bodyBack {a b : Code} (h : Recast ρ false a b) : Recast ρ false a (declare [] b)
  /-- The same the other way round. -/
  | bindBack (i : Nat) (x : Name) {d? : Option Code} {bs : List (Binding Code)} {a b e : Code}
    (hd : Recast ρ false e (d?.getD absent)) (h : Recast ρ false a (declare bs b)) :
    Recast ρ false (call (function i none [x] a) [e]) (declare (⟨x, d?⟩ :: bs) b)

namespace Recast

variable {ρ σ : Nat → Nat → Prop} {forth : Bool} {c c' : Code}

theorem mono (hρ : ∀ i j, ρ i j → σ i j) (h : Recast ρ forth c c') : Recast σ forth c c' := by
  induction h with
  | int n => exact .int n
  | str s => exact .str s
  | bool b => exact .bool b
  | var x => exact .var x
  | assign x _ ih => exact .assign x ih
  | binary op _ _ ihl ihr => exact .binary op ihl ihr
  | negate _ ih => exact .negate ih
  | nil => exact .nil
  | cons _ _ ih ihs => exact .cons ih ihs
  | call _ _ ih ihs => exact .call ih ihs
  | function hij name? params _ ih => exact .function (hρ _ _ hij) name? params ih
  | ifThen _ _ iht ihc => exact .ifThen iht ihc
  | ifThenElse _ _ _ iht ihc iha => exact .ifThenElse iht ihc iha
  | body _ ih => exact .body ih
  | bind j x _ _ ihd ih => exact .bind j x ihd ih
  | bodyBack _ ih => exact .bodyBack ih
  | bindBack i x _ _ ihd ih => exact .bindBack i x ihd ih

/-- What is written forth from one side is written back from the other. -/
theorem symm (h : Recast ρ forth c c') : Recast (flip ρ) (!forth) c' c := by
  induction h with
  | int n => exact .int n
  | str s => exact .str s
  | bool b => exact .bool b
  | var x => exact .var x
  | assign x _ ih => exact .assign x ih
  | binary op _ _ ihl ihr => exact .binary op ihl ihr
  | negate _ ih => exact .negate ih
  | nil => exact .nil
  | cons _ _ ih ihs => exact .cons ih ihs
  | call _ _ ih ihs => exact .call ih ihs
  | @function _ i j hij name? params _ _ _ ih =>
    have hji : flip ρ j i := hij
    exact .function hji name? params ih
  | ifThen _ _ iht ihc => exact .ifThen iht ihc
  | ifThenElse _ _ _ iht ihc iha => exact .ifThenElse iht ihc iha
  | body _ ih => exact .bodyBack ih
  | bind j x _ _ ihd ih => exact .bindBack j x ihd ih
  | bodyBack _ ih => exact .body ih
  | bindBack i x _ _ ihd ih => exact .bind i x ihd ih

/-- But for its numbers, the one is the other with its `let`s written as calls. -/
theorem erase_eq (h : Recast ρ forth c c') (hforth : forth = true) :
    c'.erase = c.erase.desugar := by
  induction h with
  | int n => rfl
  | str s => rfl
  | bool b => rfl
  | var x => rfl
  | assign x _ ih => simp only [erase, desugar, ih hforth]
  | binary op _ _ ihl ihr => simp only [erase, desugar, ihl hforth, ihr hforth]
  | negate _ ih => simp only [erase, desugar, ih hforth]
  | nil => rfl
  | cons _ _ ih ihs =>
    have hs := Term.seq.inj (ihs hforth)
    simp only [erase, eraseAll, desugar, desugarAll, ih hforth, hs]
  | call _ _ ih ihs =>
    have hs := Term.seq.inj (ihs hforth)
    simp only [erase, desugar, ih hforth, hs]
  | function hij name? params _ ih => simp only [erase, desugar, ih hforth]
  | ifThen _ _ iht ihc => simp only [erase, desugar, iht hforth, ihc hforth]
  | ifThenElse _ _ _ iht ihc iha =>
    simp only [erase, desugar, iht hforth, ihc hforth, iha hforth]
  | body _ ih => exact ih hforth
  | @bind j x d? bs a b e _ _ ihd ih =>
    have hb : b.erase = desugarBindings (eraseBindings bs) a.erase.desugar := ih hforth
    cases d? with
    | none =>
      have he : e.erase = absent := ihd hforth
      simp only [erase, eraseAll, eraseBindings, desugar, desugarBindings, hb, he]
    | some d =>
      have he : e.erase = d.erase.desugar := ihd hforth
      simp only [erase, eraseAll, eraseBindings, desugar, desugarBindings, hb, he]
  | bodyBack => cases hforth
  | bindBack => cases hforth

end Recast

/-! ### Numbered trees and what they are written as -/

/-- Numbers of the one list stand for numbers of the other. -/
structure Joins (pairs : List (Nat × Nat)) (ms ns : List Nat) : Prop where
  fst : (pairs.map Prod.fst).Subperm ms
  snd : (pairs.map Prod.snd).Subperm ns

namespace Joins

variable {pairs pairs' : List (Nat × Nat)} {ms ms' ns ns' : List Nat}

theorem nil (ms ns : List Nat) : Joins [] ms ns := ⟨List.nil_subperm, List.nil_subperm⟩

theorem append (h : Joins pairs ms ns) (h' : Joins pairs' ms' ns') :
    Joins (pairs ++ pairs') (ms ++ ms') (ns ++ ns') := by
  refine ⟨?_, ?_⟩
  · rw [List.map_append]
    exact h.fst.append h'.fst
  · rw [List.map_append]
    exact h.snd.append h'.snd

theorem cons (h : Joins pairs ms ns) (i j : Nat) :
    Joins ((i, j) :: pairs) (i :: ms) (j :: ns) :=
  ⟨(List.subperm_cons i).mpr h.fst, (List.subperm_cons j).mpr h.snd⟩

/-- The order of numbers does not matter, and there may be more. -/
theorem mono (h : Joins pairs ms ns) (hms : ms.Subperm ms') (hns : ns.Subperm ns') :
    Joins pairs ms' ns' := ⟨h.fst.trans hms, h.snd.trans hns⟩

/-- Where no number occurs twice, a number stands for one number only. -/
theorem biUnique (h : Joins pairs ms ns) (hms : ms.Nodup) (hns : ns.Nodup) :
    Relator.BiUnique fun i j => (i, j) ∈ pairs := by
  have hfst : (pairs.map Prod.fst).Nodup := by
    obtain ⟨ms', hperm, hsub⟩ := h.fst
    exact hperm.nodup_iff.mp (hsub.nodup hms)
  have hsnd : (pairs.map Prod.snd).Nodup := by
    obtain ⟨ns', hperm, hsub⟩ := h.snd
    exact hperm.nodup_iff.mp (hsub.nodup hns)
  constructor
  · intro i k j hij hkj
    exact congrArg Prod.fst (List.inj_on_of_nodup_map hsnd hij hkj rfl)
  · intro i j l hij hil
    exact congrArg Prod.snd (List.inj_on_of_nodup_map hfst hij hil rfl)

end Joins

/-- The second tree is the first with its `let`s written as calls, and numbers of the one stand for
numbers of the other. -/
def Recastable (c c' : Code) : Prop :=
  ∃ pairs, Joins pairs c.marks c'.marks ∧ Recast (fun i j => (i, j) ∈ pairs) true c c'

/-- An assignment has a variable on its left. -/
def Targeted (s : Tree) : Prop := s.isAssignment = true → s.assigned?.isSome = true

instance (s : Tree) : Decidable (Targeted s) :=
  inferInstanceAs (Decidable (s.isAssignment = true → s.assigned?.isSome = true))

section

variable {pairs pairs' : List (Nat × Nat)} {a b : Code}

theorem Recast.inl (h : Recast (fun i j => (i, j) ∈ pairs) true a b) :
    Recast (fun i j => (i, j) ∈ pairs ++ pairs') true a b :=
  h.mono fun _ _ => List.mem_append_left pairs'

theorem Recast.inr (h : Recast (fun i j => (i, j) ∈ pairs') true a b) :
    Recast (fun i j => (i, j) ∈ pairs ++ pairs') true a b :=
  h.mono fun _ _ => List.mem_append_right pairs

theorem Recastable.absent : Recastable Term.absent Term.absent := ⟨[], .nil _ _, .bool false⟩

/-- A binding of which the definition and the rest are written as calls. -/
theorem Recastable.bind (j : Nat) (x : Name) {d? : Option Code} {bs : List (Binding Code)} {e : Code}
    (hd : Recastable (d?.getD Term.absent) e) (h : Recastable (declare bs a) b) :
    Recastable (declare (⟨x, d?⟩ :: bs) a) (.call (.function j none [x] b) [e]) := by
  obtain ⟨pairs, hjoins, hd⟩ := hd
  obtain ⟨pairs', hjoins', h⟩ := h
  refine ⟨pairs ++ pairs', (hjoins.append hjoins').mono ?_ ?_, .bind j x hd.inl h.inr⟩
  · have hmarks : (declare (⟨x, d?⟩ :: bs) a).marks =
        (d?.getD Term.absent).marks ++ (declare bs a).marks := by
      cases d? with
      | none => rfl
      | some d => exact List.append_assoc _ _ _
    rw [hmarks]
  · -- the definition comes last in the call, and the new literal stands for nothing
    have hmarks : (call (function j none [x] b) [e]).marks = j :: (b.marks ++ e.marks) := by
      simp [marks, marksAll]
    rw [hmarks]
    exact List.perm_append_comm.subperm.trans (List.sublist_cons_self j _).subperm

end

mutual

/-- **Any numbering of a tree can be taken for what the tree is written as.** -/
theorem exists_recast (c : Code) (hc : Throughout Targeted c.erase) {c' : Code}
    (h : c'.erase = c.erase.desugar) : Recastable c c' := by
  cases c with
  | int n =>
    cases hasTree_of_erase_eq h
    exact ⟨[], .nil _ _, .int n⟩
  | str s =>
    cases hasTree_of_erase_eq h
    exact ⟨[], .nil _ _, .str s⟩
  | bool b =>
    cases hasTree_of_erase_eq h
    exact ⟨[], .nil _ _, .bool b⟩
  | var x =>
    cases hasTree_of_erase_eq h
    exact ⟨[], .nil _ _, .var x⟩
  | assign target value =>
    have htarget : target.asVariable?.isSome = true := by
      rw [← assigned?_erase target value]
      exact hc.self rfl
    cases target with
    | var x =>
      cases hasTree_of_erase_eq h with
      | assign ha hb =>
        cases hasTree_of_erase_eq ha
        obtain ⟨pairs, hjoins, hvalue⟩ := exists_recast value hc.assign hb
        exact ⟨pairs, hjoins, .assign x hvalue⟩
    | _ => cases htarget
  | binary op left right =>
    cases hasTree_of_erase_eq h with
    | binary op ha hb =>
      obtain ⟨pairs, hjoins, hl⟩ := exists_recast left hc.binary.1 ha
      obtain ⟨pairs', hjoins', hr⟩ := exists_recast right hc.binary.2 hb
      exact ⟨pairs ++ pairs', hjoins.append hjoins', .binary op hl.inl hr.inr⟩
  | negate body =>
    cases hasTree_of_erase_eq h with
    | negate ha =>
      obtain ⟨pairs, hjoins, hbody⟩ := exists_recast body hc.negate ha
      exact ⟨pairs, hjoins, .negate hbody⟩
  | seq items =>
    cases hasTree_of_erase_eq h with
    | @seq as _ has => exact exists_recastAll items (fun s hs => hc s (List.mem_cons_of_mem _ hs)) has
  | call callee args =>
    cases hasTree_of_erase_eq h with
    | call hf has =>
      obtain ⟨pairs, hjoins, hcallee⟩ := exists_recast callee
        (fun s hs => hc s (List.mem_cons_of_mem _ (List.mem_append_left _ hs))) hf
      obtain ⟨pairs', hjoins', hargs⟩ := exists_recastAll args
        (fun s hs => hc s (List.mem_cons_of_mem _ (List.mem_append_right _ hs))) has
      exact ⟨pairs ++ pairs', hjoins.append hjoins', .call hcallee.inl hargs.inr⟩
  | function i name? params body =>
    cases hasTree_of_erase_eq h with
    | function j _ _ ha =>
      obtain ⟨pairs, hjoins, hbody⟩ := exists_recast body hc.function ha
      exact ⟨(i, j) :: pairs, hjoins.cons i j, .function List.mem_cons_self name? params
        (hbody.mono fun _ _ => List.mem_cons_of_mem _)⟩
  | conditional test consequent alternative? =>
    obtain ⟨htest, hconsequent, halternative⟩ := throughout_conditional hc
    cases alternative? with
    | none =>
      cases hasTree_of_erase_eq h with
      | ifThen ha hb =>
        obtain ⟨pairs, hjoins, ht⟩ := exists_recast test htest ha
        obtain ⟨pairs', hjoins', hthen⟩ := exists_recast consequent hconsequent hb
        exact ⟨pairs ++ pairs', hjoins.append hjoins', .ifThen ht.inl hthen.inr⟩
    | some alternative =>
      cases hasTree_of_erase_eq h with
      | ifThenElse ha hb hc =>
        obtain ⟨pairs, hjoins, ht⟩ := exists_recast test htest ha
        obtain ⟨pairs', hjoins', hthen⟩ := exists_recast consequent hconsequent hb
        obtain ⟨pairs'', hjoins'', helse⟩ := exists_recast alternative (halternative _ rfl) hc
        exact ⟨pairs ++ (pairs' ++ pairs''), hjoins.append (hjoins'.append hjoins''),
          .ifThenElse ht.inl hthen.inl.inr helse.inr.inr⟩
  | declare bindings body =>
    refine exists_recast_bindings bindings (fun s hs => hc s ?_) (fun c' hc' => ?_) h
    · exact List.mem_cons_of_mem _ (List.mem_append_left _ hs)
    · exact exists_recast body
        (fun s hs => hc s (List.mem_cons_of_mem _ (List.mem_append_right _ hs))) hc'
termination_by structural c

theorem exists_recastAll (cs : List Code) (hcs : ∀ s ∈ partsAll true (eraseAll cs), Targeted s)
    {cs' : List Code} (h : HaveTrees cs' (desugarAll (eraseAll cs))) :
    Recastable (seq cs) (seq cs') := by
  cases cs with
  | nil =>
    cases h
    exact ⟨[], .nil _ _, .nil⟩
  | cons c cs =>
    obtain ⟨hc, hcs⟩ := List.forall_mem_append.mp hcs
    cases h with
    | cons ha has =>
      obtain ⟨pairs, hjoins, hc⟩ := exists_recast c hc ha
      obtain ⟨pairs', hjoins', hcs⟩ := exists_recastAll cs hcs has
      exact ⟨pairs ++ pairs', hjoins.append hjoins', .cons hc.inl hcs.inr⟩
termination_by structural cs

theorem exists_recast_bindings (bs : List (Binding Code))
    (hbs : ∀ s ∈ partsBindings true (eraseBindings bs), Targeted s) {body : Code}
    (hbody : ∀ c' : Code, c'.erase = body.erase.desugar → Recastable body c') {c' : Code}
    (h : c'.erase = desugarBindings (eraseBindings bs) body.erase.desugar) :
    Recastable (declare bs body) c' := by
  cases bs with
  | nil =>
    obtain ⟨pairs, hjoins, hbody⟩ := hbody c' h
    exact ⟨pairs, hjoins, .body hbody⟩
  | cons b bs =>
    obtain ⟨x, d?⟩ := b
    cases d? with
    | none =>
      cases hasTree_of_erase_eq h with
      | call hf has =>
        cases hasTree_of_erase_eq hf with
        | function j _ _ hinner =>
          cases has with
          | cons he hnil =>
            cases hnil
            cases hasTree_of_erase_eq he
            exact .bind j x .absent (exists_recast_bindings bs hbs hbody hinner)
    | some d =>
      obtain ⟨hd, hbs⟩ := List.forall_mem_append.mp hbs
      cases hasTree_of_erase_eq h with
      | call hf has =>
        cases hasTree_of_erase_eq hf with
        | function j _ _ hinner =>
          cases has with
          | cons he hnil =>
            cases hnil
            exact .bind j x (exists_recast d hd he) (exists_recast_bindings bs hbs hbody hinner)
termination_by structural bs

end

/-- However a tree and what it is written as are numbered, the one is the other with its `let`s
written as calls, and each number stands for one number at most. -/
theorem exists_recast_label {t : Tree} (ht : Throughout Targeted t) (first first' : Nat) :
    ∃ ρ, Relator.BiUnique ρ ∧
      Recast ρ true (t.label.run first).1 (t.desugar.label.run first').1 := by
  obtain ⟨c, d, hc, rfl, hmarks⟩ := label_spec t first
  obtain ⟨c', d', hc', herase, hmarks'⟩ := label_spec c.erase.desugar first'
  obtain ⟨pairs, hjoins, hrecast⟩ := exists_recast c ht herase
  refine ⟨_, hjoins.biUnique ?_ ?_, ?_⟩
  · rw [hmarks]
    exact List.nodup_range'
  · rw [hmarks']
    exact List.nodup_range'
  · rw [hc, hc']
    exact hrecast

/-- Numbering makes no tree malformed. -/
theorem check_label (t : Tree) (first : Nat) : (t.label.run first).1.check = t.check := by
  obtain ⟨c, d, hc, rfl, -⟩ := label_spec t first
  rw [hc, check_erase]

end LetLambda.Term
