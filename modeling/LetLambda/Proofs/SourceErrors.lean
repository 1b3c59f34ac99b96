import LetLambda.Command
import LetLambda.Proofs.Confinement
import LetLambda.Proofs.Roundtrip

/-!
# Errors of programs that were read

Some errors are there for terms that were made by hand. A term that was read from a text is
well-formed and all its operators are known, and the transform keeps it so; besides, whatever the
transform gives assigns to variables only, and what it refuses is an assignment to something else
(`endsApt_cps`). A run does nothing but what some part of its code says (`blames_of_ended`), so none
of the errors that are owed to a part that is not there can come of running such a program, however
long it runs.
-/

namespace LetLambda

namespace Term

/-- A tree does not itself have an operator that is unknown. -/
def operatorKnown : Tree → Bool
  | binary op _ _ => (BinaryOp.ofSymbol? op).isSome
  | _ => true

end Term

/-! ### What can be written is well made -/

/-- A tree without empty names and without unknown operators. -/
structure WellMade (t : Tree) : Prop where
  check : t.check = .ok ()
  known : Throughout (fun s => s.operatorKnown = true) t

theorem Name.ne_empty_of_isWritable {x : Name} (h : Name.isWritable x = true) : x ≠ "" := by
  rintro rfl
  cases h

theorem Malformed.unlessNamed_of_isWritable {x : Name} (fault : Malformed)
    (h : Name.isWritable x = true) : fault.unlessNamed x = .ok () :=
  if_neg (Name.ne_empty_of_isWritable h)

theorem Malformed.checkParams_of_isWritable {xs : List Name}
    (h : ∀ x ∈ xs, Name.isWritable x = true) : checkParams xs = .ok () := by
  induction xs with
  | nil => rfl
  | cons x xs ih =>
    obtain ⟨hx, hxs⟩ := List.forall_mem_cons.mp h
    rw [checkParams, bind_eq_ok_iff]
    exact ⟨unlessNamed_of_isWritable _ hx, ih hxs⟩

theorem Malformed.checkFunctionName_of_isWritable {name? : Option Name}
    (h : ∀ x ∈ name?.toList, Name.isWritable x = true) : checkFunctionName name? = .ok () := by
  cases name? with
  | none => rfl
  | some f => exact unlessNamed_of_isWritable _ (h f (List.mem_singleton_self f))

open Malformed (bind_eq_ok_iff)

mutual

/-- A term that can be written is well made. -/
theorem wellMade_of_isPrintable (t : Tree) (h : t.isPrintable = true) : WellMade t := by
  cases t with
  | int n | str s | bool b => exact ⟨rfl, List.forall_mem_singleton.mpr rfl⟩
  | var x => exact ⟨Malformed.unlessNamed_of_isWritable _ h, List.forall_mem_singleton.mpr rfl⟩
  | assign target value =>
    obtain ⟨htarget, hvalue⟩ := Bool.and_eq_true_iff.mp h
    have htarget := wellMade_of_isPrintable target htarget
    have hvalue := wellMade_of_isPrintable value hvalue
    exact ⟨bind_eq_ok_iff.mpr ⟨htarget.check, hvalue.check⟩, List.forall_mem_cons.mpr
      ⟨rfl, List.forall_mem_append.mpr ⟨htarget.known, hvalue.known⟩⟩⟩
  | binary op left right =>
    simp only [Term.isPrintable, Bool.and_eq_true] at h
    have hleft := wellMade_of_isPrintable left h.1.2
    have hright := wellMade_of_isPrintable right h.2
    have hop : op ≠ "" := by
      rintro rfl
      cases h.1.1
    refine ⟨?_, List.forall_mem_cons.mpr
      ⟨h.1.1, List.forall_mem_append.mpr ⟨hleft.known, hright.known⟩⟩⟩
    simp only [Term.check, bind_eq_ok_iff, hleft.check, hright.check, Malformed.unlessNamed,
      if_neg hop, and_self]
  | negate body =>
    have hbody := wellMade_of_isPrintable body h
    exact ⟨hbody.check, List.forall_mem_cons.mpr ⟨rfl, hbody.known⟩⟩
  | seq items =>
    obtain ⟨hcheck, hknown⟩ := wellMade_of_allPrintable items (Bool.and_eq_true_iff.mp h).2
    exact ⟨hcheck, List.forall_mem_cons.mpr ⟨rfl, hknown⟩⟩
  | call callee args =>
    obtain ⟨hcallee, hargs⟩ := Bool.and_eq_true_iff.mp h
    have hcallee := wellMade_of_isPrintable callee hcallee
    obtain ⟨hcheck, hknown⟩ := wellMade_of_allPrintable args hargs
    exact ⟨bind_eq_ok_iff.mpr ⟨hcallee.check, hcheck⟩, List.forall_mem_cons.mpr
      ⟨rfl, List.forall_mem_append.mpr ⟨hcallee.known, hknown⟩⟩⟩
  | function i name? params body =>
    obtain ⟨hnames, hbody⟩ := Bool.and_eq_true_iff.mp h
    obtain ⟨hname, hparams⟩ := List.forall_mem_append.mp (List.all_eq_true.mp hnames)
    have hbody := wellMade_of_isPrintable body hbody
    refine ⟨?_, List.forall_mem_cons.mpr ⟨rfl, hbody.known⟩⟩
    simp only [Term.check, bind_eq_ok_iff, Malformed.checkFunctionName_of_isWritable hname,
      Malformed.checkParams_of_isWritable hparams, hbody.check, and_self]
  | conditional test consequent alternative? =>
    cases alternative? with
    | none =>
      obtain ⟨htest, hconsequent⟩ := Bool.and_eq_true_iff.mp h
      have htest := wellMade_of_isPrintable test htest
      have hconsequent := wellMade_of_isPrintable consequent hconsequent
      exact ⟨bind_eq_ok_iff.mpr ⟨htest.check, hconsequent.check⟩, List.forall_mem_cons.mpr
        ⟨rfl, List.forall_mem_append.mpr ⟨htest.known, hconsequent.known⟩⟩⟩
    | some alternative =>
      simp only [Term.isPrintable, Bool.and_eq_true] at h
      have htest := wellMade_of_isPrintable test h.1.1
      have hconsequent := wellMade_of_isPrintable consequent h.1.2
      have halternative := wellMade_of_isPrintable alternative h.2
      refine ⟨?_, List.forall_mem_cons.mpr ⟨rfl, List.forall_mem_append.mpr ⟨htest.known,
        List.forall_mem_append.mpr ⟨hconsequent.known, halternative.known⟩⟩⟩⟩
      simp only [Term.check, bind_eq_ok_iff, htest.check, hconsequent.check, halternative.check,
        and_self]
  | declare bindings body =>
    obtain ⟨hbindings, hbody⟩ := Bool.and_eq_true_iff.mp h
    obtain ⟨hcheck, hknown⟩ := wellMade_of_bindingsPrintable bindings hbindings
    have hbody := wellMade_of_isPrintable body hbody
    exact ⟨bind_eq_ok_iff.mpr ⟨hcheck, hbody.check⟩, List.forall_mem_cons.mpr
      ⟨rfl, List.forall_mem_append.mpr ⟨hknown, hbody.known⟩⟩⟩
termination_by structural t

theorem wellMade_of_allPrintable (ts : List Tree) (h : Term.allPrintable ts = true) :
    Term.checkAll ts = .ok () ∧ ∀ s ∈ Term.partsAll true ts, s.operatorKnown = true := by
  cases ts with
  | nil => exact ⟨rfl, List.forall_mem_nil _⟩
  | cons t ts =>
    obtain ⟨ht, hts⟩ := Bool.and_eq_true_iff.mp h
    have ht := wellMade_of_isPrintable t ht
    obtain ⟨hcheck, hknown⟩ := wellMade_of_allPrintable ts hts
    exact ⟨bind_eq_ok_iff.mpr ⟨ht.check, hcheck⟩, List.forall_mem_append.mpr ⟨ht.known, hknown⟩⟩
termination_by structural ts

theorem wellMade_of_bindingsPrintable (bs : List (Binding Tree))
    (h : Term.bindingsPrintable bs = true) :
    Term.checkBindings bs = .ok () ∧ ∀ s ∈ Term.partsBindings true bs, s.operatorKnown = true := by
  cases bs with
  | nil => exact ⟨rfl, List.forall_mem_nil _⟩
  | cons b bs =>
    cases b with
    | mk x t? =>
      cases t? with
      | none =>
        obtain ⟨hx, hbs⟩ := Bool.and_eq_true_iff.mp h
        obtain ⟨hcheck, hknown⟩ := wellMade_of_bindingsPrintable bs hbs
        exact ⟨bind_eq_ok_iff.mpr ⟨Malformed.unlessNamed_of_isWritable _ hx, hcheck⟩, hknown⟩
      | some t =>
        simp only [Term.bindingsPrintable, Bool.and_eq_true] at h
        have ht := wellMade_of_isPrintable t h.1.2
        obtain ⟨hcheck, hknown⟩ := wellMade_of_bindingsPrintable bs h.2
        refine ⟨?_, List.forall_mem_append.mpr ⟨ht.known, hknown⟩⟩
        simp only [Term.checkBindings, bind_eq_ok_iff, Malformed.unlessNamed_of_isWritable _ h.1.1,
          ht.check, hcheck, and_self]
termination_by structural bs

end

/-- What is read from a text is well made. -/
theorem Tree.wellMade_of_ofText {text : String} {t : Tree} (h : Tree.ofText text = .ok t) :
    WellMade t := by
  obtain ⟨items, rfl, hitems⟩ := Tree.isPrintable_of_ofText h
  obtain ⟨hcheck, hknown⟩ := wellMade_of_allPrintable items (Term.allPrintable_iff.mpr hitems)
  exact ⟨hcheck, List.forall_mem_cons.mpr ⟨rfl, hknown⟩⟩

/-! ### What the transform gives or refuses -/

/-- A tree does not itself have an operator that is unknown, and is no assignment to anything but a
variable. -/
structure Apt (s : Tree) : Prop where
  known : s.operatorKnown = true
  target : s.isAssignment = true → s.assigned?.isSome = true

/-- A tree that is apt, or is an assignment that is refused with an error of `refused`. -/
structure AptUnless (refused : TransformError → Prop) (s : Tree) : Prop where
  known : s.operatorKnown = true
  target : s.isAssignment = true → s.assigned? = none → refused (.unsupported s)

namespace Transform

section

variable {α β : Type} {refused : TransformError → Prop}

/-- Whatever names have been given out, a transform gives something of `P`, or fails with an error
of `refused`. -/
def Ends (refused : TransformError → Prop) (P : α → Prop) (x : Transform α) : Prop :=
  ∀ s, match (x.run.run s).1 with
    | .ok a => P a
    | .error e => refused e

theorem ends_pure {P : α → Prop} {a : α} (h : P a) : Ends refused P (pure a) := fun _ => h

theorem ends_throw {P : α → Prop} {e : TransformError} (h : refused e) :
    Ends refused P (throw e) := fun _ => h

theorem ends_fresh (stem : String) : Ends refused (fun _ => True) (fresh stem) := fun _ => trivial

theorem Ends.bind {P : α → Prop} {Q : β → Prop} {x : Transform α} {f : α → Transform β}
    (hx : Ends refused P x) (hf : ∀ a, P a → Ends refused Q (f a)) : Ends refused Q (x >>= f) := by
  intro s
  have hx := hx s
  rw [ExceptT.run_bind, StateT.run_bind]
  obtain ⟨⟨r, s₁⟩, hr⟩ : ∃ p, x.run.run s = p := ⟨_, rfl⟩
  rw [hr] at hx ⊢
  cases r with
  | error e => exact hx
  | ok a => exact hf a hx s₁

end

variable {refused : TransformError → Prop}

/-- A transform that gives a tree that is apt throughout. -/
abbrev EndsApt (refused : TransformError → Prop) : Transform Tree → Prop :=
  Ends refused (Throughout Apt)

theorem throughout_apt_var (x : Name) : Throughout Apt (.var x) :=
  List.forall_mem_singleton.mpr ⟨rfl, nofun⟩

theorem throughout_apt_absent : Throughout Apt .absent := List.forall_mem_singleton.mpr ⟨rfl, nofun⟩

theorem throughout_apt_function {name? : Option Name} {params : List Name} {body : Tree}
    (h : Throughout Apt body) : Throughout Apt (.function () name? params body) :=
  List.forall_mem_cons.mpr ⟨⟨rfl, nofun⟩, h⟩

theorem throughout_apt_call {callee : Tree} {args : List Tree} (hf : Throughout Apt callee)
    (hargs : ∀ t ∈ args, Throughout Apt t) : Throughout Apt (.call callee args) := by
  refine List.forall_mem_cons.mpr ⟨⟨rfl, nofun⟩, List.forall_mem_append.mpr ⟨hf, fun s hs => ?_⟩⟩
  obtain ⟨t, ht, hs⟩ := Term.mem_partsAll.mp hs
  exact hargs t ht s hs

theorem endsApt_jump (target : Name) {v : Tree} (hv : Throughout Apt v) :
    EndsApt refused (jump target v) :=
  ends_pure (throughout_apt_call (throughout_apt_var target) (List.forall_mem_singleton.mpr hv))

theorem endsApt_reify {k : Cont} (hk : ∀ v, Throughout Apt v → EndsApt refused (k v)) :
    EndsApt refused (reify k) :=
  (ends_fresh "R").bind fun x _ => (hk _ (throughout_apt_var x)).bind fun _ hbody =>
    ends_pure (throughout_apt_function hbody)

theorem endsApt_branches {join : Name} {test consequent alternative rest : Tree}
    (htest : Throughout Apt test) (hconsequent : Throughout Apt consequent)
    (halternative : Throughout Apt alternative) (hrest : Throughout Apt rest) :
    EndsApt refused (pure (branches join test consequent alternative rest)) := by
  refine ends_pure (throughout_apt_call (throughout_apt_function ?_)
    (List.forall_mem_singleton.mpr hrest))
  exact List.forall_mem_cons.mpr ⟨⟨rfl, nofun⟩, List.forall_mem_append.mpr
    ⟨htest, List.forall_mem_append.mpr ⟨hconsequent, halternative⟩⟩⟩

theorem endsApt_binding {x y : Name} {inner after v : Tree} (hinner : Throughout Apt inner)
    (hafter : Throughout Apt after) (hv : Throughout Apt v) :
    EndsApt refused (pure (.call (.function () none [x, y] inner) [after, v])) :=
  ends_pure (throughout_apt_call (throughout_apt_function hinner)
    (List.forall_mem_cons.mpr ⟨hafter, List.forall_mem_singleton.mpr hv⟩))

mutual

/-- **The transform of a tree whose operators are known** is apt throughout, or what is refused is
an assignment of the tree. -/
theorem endsApt_cps (t : Tree) (ht : Throughout (AptUnless refused) t) {k : Cont}
    (hk : ∀ v, Throughout Apt v → EndsApt refused (k v)) : EndsApt refused (cps t k) := by
  cases t with
  | int n | str s | bool b => exact hk _ (List.forall_mem_singleton.mpr ⟨rfl, nofun⟩)
  | var x => exact hk _ (throughout_apt_var x)
  | negate t =>
    exact endsApt_cps t ht.negate fun v hv => hk _ (List.forall_mem_cons.mpr ⟨⟨rfl, nofun⟩, hv⟩)
  | binary op left right =>
    refine endsApt_cps left ht.binary.1 fun l hl => endsApt_cps right ht.binary.2 fun r hr => ?_
    exact hk _ (List.forall_mem_cons.mpr
      ⟨⟨ht.self.known, nofun⟩, List.forall_mem_append.mpr ⟨hl, hr⟩⟩)
  | assign target t =>
    cases target with
    | var x =>
      refine endsApt_cps t ht.assign fun v hv => hk _ (List.forall_mem_cons.mpr
        ⟨⟨rfl, fun _ => rfl⟩, List.forall_mem_append.mpr ⟨throughout_apt_var x, hv⟩⟩)
    | _ => exact ends_throw (ht.self.target rfl rfl)
  | declare bindings body =>
    obtain ⟨hbindings, hbody⟩ := List.forall_mem_append.mp (List.forall_mem_cons.mp ht).2
    have hbody (k : Cont) (hk : ∀ v, Throughout Apt v → EndsApt refused (k v)) :
        EndsApt refused (cps body k) := endsApt_cps body hbody hk
    exact endsApt_cpsBindings bindings hbindings hbody hk
  | function i name? params body =>
    refine (ends_fresh "K").bind fun x _ => ?_
    refine (endsApt_cps body ht.function fun v => endsApt_jump x).bind fun body hbody => ?_
    exact hk _ (throughout_apt_function hbody)
  | conditional test consequent alternative? =>
    obtain ⟨htest, hconsequent, halternative⟩ := ht.conditional
    cases alternative? with
    | none =>
      refine endsApt_cps test htest fun v hv => (ends_fresh "I").bind fun x _ => ?_
      refine (endsApt_reify hk).bind fun rest hrest => ?_
      refine (endsApt_cps consequent hconsequent fun v => endsApt_jump x).bind fun c hc => ?_
      refine (endsApt_jump x throughout_apt_absent).bind fun a ha => ?_
      exact endsApt_branches hv hc ha hrest
    | some alternative =>
      refine endsApt_cps test htest fun v hv => (ends_fresh "I").bind fun x _ => ?_
      refine (endsApt_reify hk).bind fun rest hrest => ?_
      refine (endsApt_cps consequent hconsequent fun v => endsApt_jump x).bind fun c hc => ?_
      refine (endsApt_cps alternative (halternative _ rfl) fun v => endsApt_jump x).bind
        fun a ha => ?_
      exact endsApt_branches hv hc ha hrest
  | seq items => exact endsApt_cpsSequence items ht.seq hk
  | call callee args =>
    obtain ⟨hcallee, hargs⟩ := List.forall_mem_cons.mp ht.call
    refine endsApt_cps callee hcallee fun f hf => (endsApt_reify hk).bind fun ret hret => ?_
    exact endsApt_cpsArguments args hargs hf (List.forall_mem_singleton.mpr hret)
termination_by structural t

theorem endsApt_cpsSequence (ts : List Tree) (hts : ∀ t ∈ ts, Throughout (AptUnless refused) t)
    {k : Cont} (hk : ∀ v, Throughout Apt v → EndsApt refused (k v)) :
    EndsApt refused (cpsSequence ts k) := by
  cases ts with
  | nil => exact hk _ throughout_apt_absent
  | cons t ts =>
    obtain ⟨ht, hts⟩ := List.forall_mem_cons.mp hts
    cases ts with
    | nil => exact endsApt_cps t ht hk
    | cons u ts =>
      by_cases hp : t.isPure
      · rw [cpsSequence, if_pos hp]
        exact endsApt_cpsSequence (u :: ts) hts hk
      · rw [cpsSequence, if_neg hp]
        refine endsApt_cps t ht fun v hv => ?_
        refine (endsApt_cpsSequence (u :: ts) hts hk).bind fun rest hrest => ends_pure ?_
        by_cases hp : v.isPure
        · rw [if_pos hp]
          exact hrest
        · rw [if_neg hp]
          have hall : ∀ s ∈ Term.partsAll true [v, rest], Apt s :=
            List.forall_mem_append.mpr ⟨hv, List.forall_mem_append.mpr ⟨hrest, nofun⟩⟩
          exact List.forall_mem_cons.mpr ⟨⟨rfl, nofun⟩, hall⟩
termination_by structural ts

theorem endsApt_cpsArguments (ts : List Tree) (hts : ∀ t ∈ ts, Throughout (AptUnless refused) t)
    {callee : Tree} {done : List Tree} (hf : Throughout Apt callee)
    (hdone : ∀ t ∈ done, Throughout Apt t) : EndsApt refused (cpsArguments ts callee done) := by
  cases ts with
  | nil => exact ends_pure (throughout_apt_call hf hdone)
  | cons t ts =>
    obtain ⟨ht, hts⟩ := List.forall_mem_cons.mp hts
    refine endsApt_cps t ht fun v hv => endsApt_cpsArguments ts hts hf ?_
    exact List.forall_mem_append.mpr ⟨hdone, List.forall_mem_singleton.mpr hv⟩
termination_by structural ts

theorem endsApt_cpsBindings (bs : List (Binding Tree))
    (hbs : ∀ s ∈ Term.partsBindings true bs, AptUnless refused s) {body : Cont → Transform Tree}
    (hbody : ∀ k : Cont, (∀ v, Throughout Apt v → EndsApt refused (k v)) →
      EndsApt refused (body k))
    {k : Cont} (hk : ∀ v, Throughout Apt v → EndsApt refused (k v)) :
    EndsApt refused (cpsBindings bs body k) := by
  cases bs with
  | nil => exact hbody k hk
  | cons b bs =>
    cases b with
    | mk y t? =>
      cases t? with
      | none =>
        refine (ends_fresh "K").bind fun x _ => ?_
        refine (endsApt_cpsBindings bs hbs hbody fun v => endsApt_jump x).bind
          fun inner hinner => ?_
        refine (endsApt_reify hk).bind fun after hafter => ?_
        exact endsApt_binding hinner hafter throughout_apt_absent
      | some t =>
        obtain ⟨ht, hbs⟩ := List.forall_mem_append.mp hbs
        refine (ends_fresh "K").bind fun x _ => ?_
        refine (endsApt_cpsBindings bs hbs hbody fun v => endsApt_jump x).bind
          fun inner hinner => ?_
        refine (endsApt_reify hk).bind fun after hafter => ?_
        exact endsApt_cps t ht fun v hv => endsApt_binding hinner hafter hv
termination_by structural bs

end

end Transform

/-- A tree is refused for one of its own assignments, which is to something other than a
variable. -/
def Tree.Refused (t : Tree) (e : TransformError) : Prop :=
  ∃ a ∈ t.subterms, a.isAssignment = true ∧ a.assigned? = none ∧ e = .unsupported a

namespace WellMade

variable {t m : Tree}

theorem endsApt_transform (h : WellMade t) :
    Transform.EndsApt (Tree.Refused t) (Transform.transform t id) := by
  have hparts : Throughout (AptUnless (Tree.Refused t)) t := fun s hs =>
    ⟨h.known s hs, fun hassigns htarget => ⟨s, hs, hassigns, htarget, rfl⟩⟩
  rw [Transform.transform, h.check]
  exact Transform.endsApt_cps t hparts fun v hv => Transform.ends_pure hv

theorem refused_of_transform (h : WellMade t) {e : TransformError} (he : t.transform = .error e) :
    Tree.Refused t e := by
  have hends := h.endsApt_transform .new
  rwa [show (Transform.transform t id).run.run .new = (.error e, _) from Prod.ext he rfl] at hends

theorem apt_of_transform (h : WellMade t) (hm : t.transform = .ok m) : Throughout Apt m := by
  have hends := h.endsApt_transform .new
  rwa [show (Transform.transform t id).run.run .new = (.ok m, _) from Prod.ext hm rfl] at hends

theorem check_of_transform (hm : t.transform = .ok m) : m.check = .ok () :=
  (passing_of_transformWith (Prod.ext hm rfl : t.transformWith .new id = (.ok m, _))).check

end WellMade

/-! ### Runs of programs -/

/-- The realm of a program that is run with nothing around it but the prelude. -/
def Realm.ofTree (t : Tree) : Realm where
  part s := s ∈ t.subterms
  live _ := True
  host _ := True

theorem Realm.confined_ofTree (t : Tree) {w : World} (hw : w.Elementary) :
    (Realm.ofTree t).Confined w.store.scene := by
  refine ⟨fun _ _ => trivial, fun _ _ _ _ => trivial, fun f x v _ hv => ?_⟩
  by_cases hf : f = Interpreter.globals
  · subst hf
    cases v with
    | int n | str s | bool b => trivial
    | closure lambda g => exact absurd rfl (hw.ne_closure hv lambda g)
    | host name id => trivial
  · have hsize := hw.size_scene
    rw [Store.scene_size] at hsize
    have hle : w.store.frames.size ≤ f := by
      rw [hsize]
      exact Nat.one_le_iff_ne_zero.mpr hf
    rw [Store.scene_blank _ f x hle] at hv
    cases hv

/-- A well-formed tree is not refused. -/
theorem Interpreter.exists_start (i : Interpreter) {t : Tree} (ht : t.check = .ok ()) :
    ∃ run j, i.start t = .ok (run, j) := by
  obtain ⟨c, d, hlabel, rfl, -⟩ := t.label_spec i.nextLabel
  rw [c.check_erase] at ht
  simp only [Interpreter.start, Interpreter.load, hlabel, Machine.start, ht]
  exact ⟨_, _, rfl⟩

namespace Command

variable {options : RunOptions} {setting? : Option String}

theorem interpreter_elementary : (interpreter options setting?).Elementary := by
  unfold interpreter
  by_cases hprelude : options.prelude = true
  · rw [if_pos hprelude]
    exact (Interpreter.elementary_new _ _ _).withPrelude
  · rw [if_neg hprelude]
    exact Interpreter.elementary_new _ _ _

theorem interpreter_idle : (interpreter options setting?).machine.Idle := by
  unfold interpreter
  by_cases hprelude : options.prelude = true
  · rw [if_pos hprelude]
    rfl
  · rw [if_neg hprelude]
    rfl

/-- The host functions of a program print, and do nothing else. -/
theorem host_prints (id : Nat) (args : List Value) (w : World) : ∃ console,
    (interpreter options setting?).host id args w = (.ok .absent, ⟨w.store, console⟩) := by
  have hhosts : ∀ f ∈ (interpreter options setting?).hosts, ∃ write, f = .writing write := by
    have hnone : ∀ f ∈ (#[] : Array HostFunction), ∃ write, f = .writing write :=
      fun f hf => absurd hf (Array.not_mem_empty f)
    unfold interpreter
    by_cases hprelude : options.prelude = true
    · rw [if_pos hprelude]
      exact Interpreter.forall_hosts_withPrelude (fun write => ⟨write, rfl⟩) hnone
    · rw [if_neg hprelude]
      exact hnone
  obtain ⟨write, hwrite⟩ := Interpreter.host_of_forall ⟨_, rfl⟩ hhosts id
  exact ⟨write (HostFunction.spaced args) w.console, by rw [hwrite]; rfl⟩

theorem hosted (t : Tree) : (Realm.ofTree t).Hosted (interpreter options setting?).host := by
  refine ⟨fun id _ args w => ?_, fun id _ args w v hv => .inr ?_⟩
  · obtain ⟨console, hout⟩ := host_prints id args w
    rw [hout]
  · obtain ⟨console, hout⟩ := host_prints id args w
    rw [hout] at hv
    cases hv
    trivial

/-- What an error of a program is owed to. -/
theorem blames_of_ended {t : Tree} (ht : t.check = .ok ()) {run : Run} {i : Interpreter}
    (hstart : (interpreter options setting?).start t = .ok (run, i)) {fuel : Nat} {ended : Ended}
    (hended : run.advance i.host (fun _ => .ok ()) fuel = .ended ended) {e : EvalError}
    (he : ended.value = .error e) :
    (Realm.ofTree t).Blames (interpreter options setting?).host e := by
  obtain ⟨c, d, hlabel, rfl, -⟩ := t.label_spec (interpreter options setting?).nextLabel
  rw [c.check_erase] at ht
  simp only [Interpreter.start, Interpreter.load, hlabel, Machine.start, ht] at hstart
  cases hstart
  obtain ⟨n, result, world', hn, rfl⟩ :=
    (Machine.advance_begin_iff interpreter_idle).mp ⟨fuel, hended⟩
  rw [Ended.value_of_verdict] at he
  subst he
  exact (Realm.within_of_finishes (hosted c.erase)
    (Realm.confined_ofTree c.erase interpreter_elementary.world) trivial (fun _ hs => hs) hn).2

/-- What can be said of an error that is owed to the parts of a tree without unknown operators. -/
theorem ne_of_blames {t : Tree} (hknown : Throughout (fun s => s.operatorKnown = true) t)
    {e : EvalError} (h : (Realm.ofTree t).Blames (interpreter options setting?).host e) :
    (∀ fault, e ≠ .malformed fault) ∧ (∀ op, e ≠ .unknownOperator op) ∧
      (Throughout Apt t → ∀ found, e ≠ .expectedVariable found) := by
  rcases h with ⟨id, args, w, -, herror⟩ | h
  · obtain ⟨console, hout⟩ := host_prints id args w
    rw [hout] at herror
    cases herror
  · refine ⟨?_, ?_, ?_⟩
    · rintro fault rfl
      exact h
    · rintro op rfl
      obtain ⟨hop, left, right, hpart⟩ := h
      have hsome : (BinaryOp.ofSymbol? op).isSome = true := hknown _ hpart
      rw [hop] at hsome
      cases hsome
    · rintro hapt found rfl
      obtain ⟨s, hpart, hassigns, htarget⟩ := h
      have hsome := (hapt s hpart).target hassigns
      rw [htarget] at hsome
      cases hsome

/-- What comes of a program is what comes of the tree with which its run was begun. -/
theorem result_of_start {source : String} {m : Tree} (hm : m.check = .ok ())
    (hstart : start options setting? source =
      ((interpreter options setting?).start m).mapError .eval)
    {fuel : Nat} {result : Except CommandError Value} {output : String}
    (hrun : run fuel options setting? source = some (result, output)) :
    ∃ r : Except EvalError Value, result = r.mapError .eval ∧
      ∀ e, r = .error e → (Realm.ofTree m).Blames (interpreter options setting?).host e := by
  obtain ⟨began, i, hbegan⟩ := (interpreter options setting?).exists_start hm
  rw [hbegan] at hstart
  rw [run, hstart] at hrun
  cases hended : began.advance i.host (fun _ => .ok ()) fuel with
  | running _ =>
    simp only [Except.mapError, hended] at hrun
    cases hrun
  | ended ended =>
    simp only [Except.mapError, hended] at hrun
    cases hrun
    exact ⟨ended.value, rfl, fun e he => blames_of_ended hm hbegan hended he⟩

/-- The tree that is run of a program whose tree is `t`. -/
def Runs (options : RunOptions) (t m : Tree) : Prop :=
  if options.cps then t.transform = .ok m else m = t

theorem Runs.known {t m : Tree} (h : Runs options t m) (ht : WellMade t) :
    Throughout (fun s => s.operatorKnown = true) m ∧ (options.cps = true → Throughout Apt m) := by
  by_cases hcps : options.cps = true
  · rw [Runs, if_pos hcps] at h
    have hapt := ht.apt_of_transform h
    exact ⟨fun s hs => (hapt s hs).known, fun _ => hapt⟩
  · rw [Runs, if_neg hcps] at h
    subst h
    exact ⟨ht.known, fun hcps' => absurd hcps' hcps⟩

/-- A program that was read is refused by the transform, or it is run. -/
theorem result_of_run {source : String} {t : Tree} (h : Tree.ofText source = .ok t)
    (hcheck : t.check = .ok ()) {fuel : Nat} {result : Except CommandError Value} {output : String}
    (hrun : run fuel options setting? source = some (result, output)) :
    (options.cps = true ∧ ∃ e, t.transform = .error e ∧ result = .error (.transform e)) ∨
      ∃ m, Runs options t m ∧ ∃ r : Except EvalError Value, result = r.mapError .eval ∧
        ∀ e, r = .error e → (Realm.ofTree m).Blames (interpreter options setting?).host e := by
  have hparse : parse source = .ok t := by
    rw [parse, h]
    rfl
  by_cases hcps : options.cps = true
  · cases htransform : t.transform with
    | error e =>
      have hstart : start options setting? source = .error (.transform e) := by
        simp only [start, hparse, bind, Except.bind, hcps, if_true, transform, htransform,
          Except.mapError]
      rw [run, hstart] at hrun
      cases hrun
      exact .inl ⟨hcps, e, rfl, rfl⟩
    | ok m =>
      have hstart : start options setting? source =
          ((interpreter options setting?).start m).mapError .eval := by
        simp only [start, hparse, bind, Except.bind, hcps, if_true, transform, htransform,
          Except.mapError]
      have hm := WellMade.check_of_transform htransform
      refine .inr ⟨m, ?_, result_of_start hm hstart hrun⟩
      rw [Runs, if_pos hcps, htransform]
  · have hstart : start options setting? source =
        ((interpreter options setting?).start t).mapError .eval := by
      simp only [start, hparse, bind, Except.bind, hcps, Bool.false_eq_true, if_false, pure,
        Except.pure]
    refine .inr ⟨t, ?_, result_of_start hcheck hstart hrun⟩
    rw [Runs, if_neg hcps]

/-- **Errors that are there for terms made by hand do not come of texts.** Whatever is read from a
text is well-formed. However such a program is run, if the run ends, it does not fail for an empty
name or for an unknown operator; all that the transform refuses is an assignment of the program to
something other than a variable; and what the transform gives does not fail for such an
assignment. -/
theorem run_errors {source : String} {t : Tree} (h : Tree.ofText source = .ok t) :
    t.check = .ok () ∧ ∀ options setting? fuel result output,
      run fuel options setting? source = some (result, output) →
        (∀ fault, result ≠ .error (.eval (.malformed fault))) ∧
        (∀ op, result ≠ .error (.eval (.unknownOperator op))) ∧
        (∀ e, result = .error (.transform e) → options.cps = true ∧
          ∃ a ∈ t.subterms, a.isAssignment = true ∧ a.assigned? = none ∧ e = .unsupported a) ∧
        (options.cps = true → ∀ found, result ≠ .error (.eval (.expectedVariable found))) := by
  have hmade := Tree.wellMade_of_ofText h
  refine ⟨hmade.check, fun options setting? fuel result output hrun => ?_⟩
  rcases result_of_run h hmade.check hrun with ⟨hcps, e, he, rfl⟩ | ⟨m, hm, r, rfl, hblames⟩
  · refine ⟨nofun, nofun, ?_, nofun⟩
    rintro _ ⟨⟩
    exact ⟨hcps, hmade.refused_of_transform he⟩
  · cases r with
    | ok v => exact ⟨nofun, nofun, nofun, nofun⟩
    | error e =>
      obtain ⟨hknown, hapt⟩ := hm.known hmade
      obtain ⟨hmalformed, hunknown, hexpected⟩ := ne_of_blames hknown (hblames e rfl)
      refine ⟨?_, ?_, nofun, fun hcps => ?_⟩
      · rintro fault ⟨⟩
        exact hmalformed fault rfl
      · rintro op ⟨⟩
        exact hunknown op rfl
      · rintro found ⟨⟩
        exact hexpected (hapt hcps) found rfl

/-- A program that assigns, prints and fails. -/
def failing : String := "let (n = 3) \x7b n = n - 3; println(n); 1 / n \x7d"

/-- Its tree. -/
def failingTree : Tree :=
  .seq [.declare [⟨"n", some (.int 3)⟩]
    (.seq [.assign (.var "n") (.binary "-" (.var "n") (.int 3)),
      .call (.var "println") [.var "n"], .binary "/" (.int 1) (.var "n")])]

theorem run_errors_failing :
    Tree.ofText failing = .ok failingTree ∧ ∃ result,
      run 200 { RunOptions.default with cps := true } none failing = some (result, "0\n") ∧
      result.isOk = false ∧ (∀ fault, result ≠ .error (.eval (.malformed fault))) ∧
      (∀ op, result ≠ .error (.eval (.unknownOperator op))) ∧
      ∀ found, result ≠ .error (.eval (.expectedVariable found)) := by
  have ht : Tree.ofText failing = .ok failingTree := by decide +kernel
  have hends : (run 200 { RunOptions.default with cps := true } none failing).map
      (fun (result, output) => (result.isOk, output)) = some (false, "0\n") := by decide +kernel
  obtain ⟨⟨result, output⟩, hrun, hends⟩ := Option.map_eq_some_iff.mp hends
  obtain ⟨hfails, rfl⟩ := Prod.mk.inj hends
  obtain ⟨-, hruns⟩ := run_errors ht
  obtain ⟨hmalformed, hunknown, -, hexpected⟩ := hruns _ _ _ _ _ hrun
  exact ⟨ht, result, hrun, hfails, hmalformed, hunknown, hexpected rfl⟩

end Command

end LetLambda
