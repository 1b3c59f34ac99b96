import LetLambda.Proofs.OrderSafety
import LetLambda.Proofs.Passing
import Mathlib.Data.List.Nodup

/-!
# Hygiene of the transform

The names that a transform draws are parameters of the functions that it makes. No function of the
result has such a parameter in common with another (`exists_transform`).

Each name that is drawn is used for one parameter, so a transform is kept account of: the generated
parameters of what it gives are those that were handed to it and those that it has drawn, each at
most as often (`Thrifty`). The account is kept of a transform that fails too, since the names that it
has drawn by then remain drawn.
-/

namespace LetLambda

open Symbols (Generated)

namespace Term

variable {ι : Type}

mutual

/-- The generated parameters of a tree, in the order in which its function literals begin. -/
def binders : Term ι → List Name
  | int _ | str _ | bool _ | var _ => []
  | assign target value => target.binders ++ value.binders
  | binary _ left right => left.binders ++ right.binders
  | negate body => body.binders
  | seq items => bindersAll items
  | call callee args => callee.binders ++ bindersAll args
  | function _ _ params body => params.filter (fun x => Generated x) ++ body.binders
  | conditional test consequent none => test.binders ++ consequent.binders
  | conditional test consequent (some alternative) =>
    test.binders ++ (consequent.binders ++ alternative.binders)
  | declare bindings body => bindersBindings bindings ++ body.binders
termination_by structural t => t

/-- The generated parameters of trees. -/
def bindersAll : List (Term ι) → List Name
  | [] => []
  | t :: ts => t.binders ++ bindersAll ts
termination_by structural ts => ts

/-- The generated parameters of definitions. -/
def bindersBindings : List (Binding (Term ι)) → List Name
  | [] => []
  | ⟨_, none⟩ :: bs => bindersBindings bs
  | ⟨_, some t⟩ :: bs => t.binders ++ bindersBindings bs
termination_by structural bs => bs

end

theorem bindersAll_eq_flatMap (ts : List (Term ι)) : bindersAll ts = ts.flatMap binders := by
  induction ts with
  | nil => rfl
  | cons t ts ih => rw [bindersAll, ih, List.flatMap_cons]

mutual

theorem generated_of_mem_binders (t : Term ι) {b : Name} (h : b ∈ t.binders) : Generated b := by
  cases t with
  | int n | str s | bool p | var x => cases h
  | assign target value =>
    rcases List.mem_append.mp h with h | h
    · exact generated_of_mem_binders target h
    · exact generated_of_mem_binders value h
  | binary op left right =>
    rcases List.mem_append.mp h with h | h
    · exact generated_of_mem_binders left h
    · exact generated_of_mem_binders right h
  | negate body => exact generated_of_mem_binders body h
  | seq items => exact generated_of_mem_bindersAll items h
  | call callee args =>
    rcases List.mem_append.mp h with h | h
    · exact generated_of_mem_binders callee h
    · exact generated_of_mem_bindersAll args h
  | function i name? params body =>
    rcases List.mem_append.mp h with h | h
    · exact of_decide_eq_true (List.mem_filter.mp h).2
    · exact generated_of_mem_binders body h
  | conditional test consequent alternative? =>
    cases alternative? with
    | none =>
      rcases List.mem_append.mp h with h | h
      · exact generated_of_mem_binders test h
      · exact generated_of_mem_binders consequent h
    | some alternative =>
      rcases List.mem_append.mp h with h | h
      · exact generated_of_mem_binders test h
      · rcases List.mem_append.mp h with h | h
        · exact generated_of_mem_binders consequent h
        · exact generated_of_mem_binders alternative h
  | declare bindings body =>
    rcases List.mem_append.mp h with h | h
    · exact generated_of_mem_bindersBindings bindings h
    · exact generated_of_mem_binders body h
termination_by structural t

theorem generated_of_mem_bindersAll (ts : List (Term ι)) {b : Name} (h : b ∈ bindersAll ts) :
    Generated b := by
  cases ts with
  | nil => cases h
  | cons t ts =>
    rcases List.mem_append.mp h with h | h
    · exact generated_of_mem_binders t h
    · exact generated_of_mem_bindersAll ts h
termination_by structural ts

theorem generated_of_mem_bindersBindings (bs : List (Binding (Term ι))) {b : Name}
    (h : b ∈ bindersBindings bs) : Generated b := by
  cases bs with
  | nil => cases h
  | cons binding bs =>
    cases binding with
    | mk x t? =>
      cases t? with
      | none => exact generated_of_mem_bindersBindings bs h
      | some t =>
        rcases List.mem_append.mp h with h | h
        · exact generated_of_mem_binders t h
        · exact generated_of_mem_bindersBindings bs h
termination_by structural bs

end

mutual

@[simp]
theorem binders_erase (t : Term ι) : t.erase.binders = t.binders := by
  cases t with
  | int n | str s | bool b | var x => rfl
  | assign target value => simp only [erase, binders, binders_erase target, binders_erase value]
  | binary op left right => simp only [erase, binders, binders_erase left, binders_erase right]
  | negate body => simp only [erase, binders, binders_erase body]
  | seq items => simp only [erase, binders, bindersAll_erase items]
  | call callee args => simp only [erase, binders, binders_erase callee, bindersAll_erase args]
  | function i name? params body => simp only [erase, binders, binders_erase body]
  | conditional test consequent alternative? =>
    cases alternative? with
    | none => simp only [erase, binders, binders_erase test, binders_erase consequent]
    | some alternative =>
      simp only [erase, binders, binders_erase test, binders_erase consequent,
        binders_erase alternative]
  | declare bindings body =>
    simp only [erase, binders, bindersBindings_erase bindings, binders_erase body]
termination_by structural t

theorem bindersAll_erase (ts : List (Term ι)) : bindersAll (eraseAll ts) = bindersAll ts := by
  cases ts with
  | nil => rfl
  | cons t ts => simp only [eraseAll, bindersAll, binders_erase t, bindersAll_erase ts]
termination_by structural ts

theorem bindersBindings_erase (bs : List (Binding (Term ι))) :
    bindersBindings (eraseBindings bs) = bindersBindings bs := by
  cases bs with
  | nil => rfl
  | cons b bs =>
    cases b with
    | mk x t? =>
      cases t? with
      | none => simp only [eraseBindings, bindersBindings, bindersBindings_erase bs]
      | some t =>
        simp only [eraseBindings, bindersBindings, binders_erase t, bindersBindings_erase bs]
termination_by structural bs

end

end Term

/-! ### Names that are drawn -/

namespace Symbols

/-- The stems of the names that a transform draws. -/
def stems : List String := ["K", "R", "I"]

/-- The names that may be drawn on the way from `s` to `s'`. -/
def drawn (s s' : Symbols) : List Name :=
  (List.range' (s.issued + 1) (s'.issued - s.issued)).flatMap fun n => stems.map (nameOf · n)

theorem drawn_append {s s₁ s₂ : Symbols} (h : s.issued ≤ s₁.issued) (h' : s₁.issued ≤ s₂.issued) :
    s.drawn s₁ ++ s₁.drawn s₂ = s.drawn s₂ := by
  have hstart : s₁.issued + 1 = s.issued + 1 + (s₁.issued - s.issued) := by omega
  have hsize : s₂.issued - s.issued = s₁.issued - s.issued + (s₂.issued - s₁.issued) := by omega
  rw [drawn, drawn, drawn, ← List.flatMap_append, hstart, List.range'_append_1, hsize]

theorem length_of_mem_stems {stem : String} (h : stem ∈ stems) : stem.toList.length = 1 := by
  rcases h with _ | ⟨_, _ | ⟨_, _ | ⟨_, h⟩⟩⟩
  · rfl
  · rfl
  · rfl
  · cases h

theorem nodup_drawn (s s' : Symbols) : (s.drawn s').Nodup := by
  have hrange : (List.range' (s.issued + 1) (s'.issued - s.issued)).Nodup := List.nodup_range'
  refine List.nodup_flatMap.mpr ⟨fun n _ => ?_, hrange.imp fun {m n} hmn => ?_⟩
  · refine (List.nodup_map_iff_inj_on (by decide)).mpr fun a ha b hb h => ?_
    exact (nameOf_inj ((length_of_mem_stems ha).trans (length_of_mem_stems hb).symm) h).1
  · intro x hm hn
    obtain ⟨a, ha, rfl⟩ := List.mem_map.mp hm
    obtain ⟨b, hb, h⟩ := List.mem_map.mp hn
    have hlen := (length_of_mem_stems hb).trans (length_of_mem_stems ha).symm
    exact hmn (nameOf_inj hlen h).2.symm

/-- On the way from `s` to `s'`, no name is used more often than it is allowed and drawn. -/
structure Spends (s s' : Symbols) (allowed used : List Name) : Prop where
  le : s.issued ≤ s'.issued
  count : ∀ b, used.count b ≤ allowed.count b + (s.drawn s').count b

theorem Spends.mem_drawn {s s' : Symbols} {used : List Name} (h : Spends s s' [] used) {b : Name}
    (hb : b ∈ used) : b ∈ s.drawn s' := by
  have hcount := h.count b
  have hused := List.count_pos_iff.mpr hb
  rw [List.count_nil] at hcount
  exact List.count_pos_iff.mp (by omega)

/-- If no name is handed over, no name is used twice. -/
theorem Spends.nodup {s s' : Symbols} {used : List Name} (h : Spends s s' [] used) :
    used.Nodup := by
  refine List.nodup_iff_count_le_one.mpr fun b => ?_
  have hdrawn := List.nodup_iff_count_le_one.mp (nodup_drawn s s') b
  have hcount := h.count b
  rw [List.count_nil] at hcount
  omega

end Symbols

/-! ### The account of a transform -/

/-- A part of a tree without generated names that is no assignment, or one to a variable, unless the
transform refuses it. -/
structure PlainUnless (refused : TransformError → Prop) (s : Tree) : Prop where
  ordinary : ∀ x ∈ s.ownNames, ¬ Generated x
  target : s.isAssignment = true → s.assigned? = none → refused (.unsupported s)

theorem Plain.unless {s : Tree} (h : Plain s) (refused : TransformError → Prop) :
    PlainUnless refused s := by
  refine ⟨h.ordinary, fun hs hnone => ?_⟩
  have htarget := h.target hs
  rw [hnone] at htarget
  cases htarget

namespace Transform

open Symbols (nameOf stems Spends drawn)

/-- What is owed on the way from `s` to the end of a transform: a tree that uses no generated name
more often than it is allowed or drawn, or an error of `refused`. No name is given back. -/
def Accounts (refused : TransformError → Prop) (allowed : List Name) (s : Symbols) :
    Except TransformError Tree × Symbols → Prop
  | (.ok m, s') => Spends s s' allowed m.binders
  | (.error e, s') => s.issued ≤ s'.issued ∧ refused e

/-- A transform that can account for its names, whichever have been drawn before it. -/
def Thrifty (refused : TransformError → Prop) (x : Transform Tree) (allowed : List Name) : Prop :=
  ∀ s, Accounts refused allowed s (x.run.run s)

variable {refused : TransformError → Prop} {x : Transform Tree} {f : Tree → Transform Tree}
  {allowed extra : List Name}

theorem thrifty_pure {m : Tree} (h : ∀ b, m.binders.count b ≤ allowed.count b) :
    Thrifty refused (pure m) allowed :=
  fun _ => ⟨Nat.le_refl _, fun b => Nat.le_add_right_of_le (h b)⟩

theorem thrifty_throw {e : TransformError} (h : refused e) : Thrifty refused (throw e) allowed :=
  fun _ => ⟨Nat.le_refl _, h⟩

theorem Thrifty.allow (hx : Thrifty refused x extra) (h : ∀ b, extra.count b ≤ allowed.count b) :
    Thrifty refused x allowed := by
  intro s
  have hs := hx s
  obtain ⟨⟨r, s'⟩, hr⟩ : ∃ p, x.run.run s = p := ⟨_, rfl⟩
  rw [hr] at hs ⊢
  cases r with
  | error e => exact hs
  | ok m =>
    exact ⟨hs.le, fun b => Nat.le_trans (hs.count b) (Nat.add_le_add_right (h b) _)⟩

/-- What the first of two transforms uses, the second may use. -/
theorem Thrifty.bind (hx : Thrifty refused x extra) (rest : List Name)
    (hf : ∀ m, Thrifty refused (f m) (rest ++ m.binders))
    (h : ∀ b, extra.count b + rest.count b ≤ allowed.count b) :
    Thrifty refused (x >>= f) allowed := by
  intro s
  have hs := hx s
  rw [ExceptT.run_bind, StateT.run_bind]
  obtain ⟨⟨r, s₁⟩, hr⟩ : ∃ p, x.run.run s = p := ⟨_, rfl⟩
  rw [hr] at hs ⊢
  cases r with
  | error e => exact hs
  | ok m =>
    have hs' := hf m s₁
    change Accounts refused allowed s ((f m).run.run s₁)
    obtain ⟨⟨r', s₂⟩, hr'⟩ : ∃ p, (f m).run.run s₁ = p := ⟨_, rfl⟩
    rw [hr'] at hs' ⊢
    cases r' with
    | error e => exact ⟨Nat.le_trans hs.le hs'.1, hs'.2⟩
    | ok n =>
      refine ⟨Nat.le_trans hs.le hs'.le, fun b => ?_⟩
      rw [← Symbols.drawn_append hs.le hs'.le, List.count_append]
      have h₁ := hs.count b
      have h₂ := hs'.count b
      have h₃ := h b
      rw [List.count_append] at h₂
      omega

/-- A name may be used once after it is drawn. -/
theorem thrifty_fresh {stem : String} {f : Name → Transform Tree} (hstem : stem ∈ stems)
    (hf : ∀ n, Thrifty refused (f (nameOf stem n)) (nameOf stem n :: allowed)) :
    Thrifty refused (fresh stem >>= f) allowed := by
  intro s
  have hs := hf (s.issued + 1) ⟨s.issued + 1⟩
  have hle : s.issued ≤ (⟨s.issued + 1⟩ : Symbols).issued := Nat.le_succ _
  change Accounts refused allowed s ((f (nameOf stem (s.issued + 1))).run.run ⟨s.issued + 1⟩)
  obtain ⟨⟨r, s'⟩, hr⟩ :
    ∃ p, (f (nameOf stem (s.issued + 1))).run.run ⟨s.issued + 1⟩ = p := ⟨_, rfl⟩
  rw [hr] at hs ⊢
  cases r with
  | error e => exact ⟨Nat.le_trans hle hs.1, hs.2⟩
  | ok m =>
    refine ⟨Nat.le_trans hle hs.le, fun b => ?_⟩
    have hdrawn : [nameOf stem (s.issued + 1)].Sublist (s.drawn ⟨s.issued + 1⟩) := by
      have hmem : nameOf stem (s.issued + 1) ∈ s.drawn ⟨s.issued + 1⟩ := by
        refine List.mem_flatMap.mpr ⟨s.issued + 1, ?_, List.mem_map_of_mem hstem⟩
        simp
      exact List.singleton_sublist.mpr hmem
    rw [← Symbols.drawn_append hle hs.le, List.count_append]
    have h₁ := hs.count b
    have h₂ := hdrawn.count_le b
    rw [← List.singleton_append, List.count_append] at h₁
    omega

theorem thrifty_jump (target : Name) (v : Tree) :
    Thrifty refused (jump target v) ([] ++ v.binders) :=
  thrifty_pure fun b => by simp [Term.binders, Term.bindersAll]

theorem thrifty_reify {k : Cont} (hk : ∀ v, Thrifty refused (k v) (allowed ++ v.binders)) :
    Thrifty refused (reify k) allowed := by
  refine thrifty_fresh (by decide) fun n => ?_
  refine (hk (.var (nameOf "R" n))).bind [nameOf "R" n] (fun body => ?_) fun b => ?_
  · refine thrifty_pure fun b => ?_
    simp only [Term.binders, List.count_append]
    exact Nat.add_le_add_right (List.filter_sublist.count_le b) _
  · simp [Term.binders, List.count_cons]

/-- The generated parameters of a function literal whose own parameters are ordinary. -/
theorem binders_function_sublist (name? : Option Name) (ret : Name) {params : List Name}
    (h : ∀ x ∈ params, ¬ Generated x) (body : Tree) :
    (Term.function () name? (ret :: params) body).binders.Sublist (ret :: body.binders) := by
  have hparams : params.filter (fun x => Generated x) = [] :=
    List.filter_eq_nil_iff.mpr fun x hx e => h x hx (of_decide_eq_true e)
  have hfilter : (ret :: params).filter (fun x => Generated x) =
      [ret].filter (fun x => Generated x) := by
    rw [List.filter_cons, List.filter_cons, hparams, List.filter_nil]
  rw [Term.binders, hfilter]
  exact List.filter_sublist.append (List.Sublist.refl _)

theorem thrifty_branches (join : Name) (test consequent alternative rest : Tree) :
    Thrifty refused (pure (branches join test consequent alternative rest))
      (join :: (test.binders ++ rest.binders ++ consequent.binders) ++ alternative.binders) := by
  refine thrifty_pure fun b => ?_
  have h := (binders_function_sublist none join (List.forall_mem_nil _)
    (.conditional test consequent (some alternative))).count_le b
  simp only [branches, Term.binders, Term.bindersAll, List.count_append, List.count_cons,
    List.cons_append, List.count_nil] at h ⊢
  omega

/-- A binding as a function, applied at once. -/
theorem thrifty_binding (ret : Name) {x : Name} (hx : ¬ Generated x) (inner after v : Tree) :
    Thrifty refused (pure (.call (.function () none [ret, x] inner) [after, v]))
      (ret :: inner.binders ++ after.binders ++ v.binders) := by
  refine thrifty_pure fun b => ?_
  have h := (binders_function_sublist none ret (List.forall_mem_singleton.mpr hx)
    inner).count_le b
  rw [Term.binders]
  simp only [Term.bindersAll, List.count_append, List.count_cons,
    List.cons_append, List.count_nil] at h ⊢
  omega

mutual

/-- **The transform of a tree without generated names is thrifty** where its continuation is. -/
theorem thrifty_cps (t : Tree) (ht : Throughout (PlainUnless refused) t) {k : Cont}
    {allowed : List Name} (hk : ∀ v, Thrifty refused (k v) (allowed ++ v.binders)) :
    Thrifty refused (cps t k) allowed := by
  cases t with
  | int n => exact (hk (.int n)).allow fun b => by simp [Term.binders]
  | str s => exact (hk (.str s)).allow fun b => by simp [Term.binders]
  | bool p => exact (hk (.bool p)).allow fun b => by simp [Term.binders]
  | var x => exact (hk (.var x)).allow fun b => by simp [Term.binders]
  | negate t => exact thrifty_cps t ht.negate fun v => hk (.negate v)
  | binary op left right =>
    refine thrifty_cps left ht.binary.1 fun l => thrifty_cps right ht.binary.2 fun r => ?_
    exact (hk (.binary op l r)).allow fun b => by simp [Term.binders]
  | assign target t =>
    cases target with
    | var x => exact thrifty_cps t ht.assign fun v => hk (.assign (.var x) v)
    | _ => exact thrifty_throw (ht.self.target rfl rfl)
  | declare bindings body =>
    obtain ⟨hbs, hbody⟩ := ThroughoutBindings.of_declare ht ht.self.ordinary
    exact thrifty_cpsBindings bindings hbs (fun hk => thrifty_cps body hbody hk) hk
  | function i name? params body =>
    refine thrifty_fresh (by decide) fun n => ?_
    refine (thrifty_cps body ht.function (thrifty_jump (nameOf "K" n))).bind
      (nameOf "K" n :: allowed) (fun body' => ?_) fun b => by simp
    refine (hk (.function () name? (nameOf "K" n :: params) body')).allow fun b => ?_
    have h := (binders_function_sublist name? (nameOf "K" n)
      (fun x hx => ht.self.ordinary x (List.mem_append_right _ hx)) body').count_le b
    simp only [List.count_append, List.count_cons, List.cons_append] at h ⊢
    omega
  | conditional test consequent alternative? =>
    cases alternative? with
    | none =>
      obtain ⟨ht, hc, -⟩ := ht.conditional
      refine thrifty_cps test ht fun v => thrifty_fresh (by decide) fun n => ?_
      refine (thrifty_reify hk).bind (nameOf "I" n :: v.binders) (fun rest => ?_) fun b => ?_
      · refine (thrifty_cps consequent hc (thrifty_jump (nameOf "I" n))).bind
          (nameOf "I" n :: (v.binders ++ rest.binders)) (fun c => ?_) fun b => by simp
        refine (thrifty_jump (nameOf "I" n) .absent).bind
          (nameOf "I" n :: (v.binders ++ rest.binders ++ c.binders)) (fun a => ?_) fun b => ?_
        · exact thrifty_branches (nameOf "I" n) v c a rest
        · simp [Term.absent, Term.binders]
      · simp only [List.count_append, List.count_cons]
        omega
    | some alternative =>
      obtain ⟨ht, hc, ha⟩ := ht.conditional
      refine thrifty_cps test ht fun v => thrifty_fresh (by decide) fun n => ?_
      refine (thrifty_reify hk).bind (nameOf "I" n :: v.binders) (fun rest => ?_) fun b => ?_
      · refine (thrifty_cps consequent hc (thrifty_jump (nameOf "I" n))).bind
          (nameOf "I" n :: (v.binders ++ rest.binders)) (fun c => ?_) fun b => by simp
        refine (thrifty_cps alternative (ha _ rfl) (thrifty_jump (nameOf "I" n))).bind
          (nameOf "I" n :: (v.binders ++ rest.binders ++ c.binders)) (fun a => ?_) fun b => by simp
        exact thrifty_branches (nameOf "I" n) v c a rest
      · simp only [List.count_append, List.count_cons]
        omega
  | seq items => exact thrifty_cpsSequence items ht.seq hk
  | call callee args =>
    have hts := List.forall_mem_cons.mp ht.call
    refine thrifty_cps callee hts.1 fun f => ?_
    refine (thrifty_reify hk).bind f.binders (fun ret => ?_) fun b => ?_
    · refine (thrifty_cpsArguments args hts.2 f [ret]).allow fun b => ?_
      simp [Term.bindersAll]
    · simp
termination_by structural t

theorem thrifty_cpsSequence (ts : List Tree)
    (hts : ∀ t ∈ ts, Throughout (PlainUnless refused) t) {k : Cont} {allowed : List Name}
    (hk : ∀ v, Thrifty refused (k v) (allowed ++ v.binders)) :
    Thrifty refused (cpsSequence ts k) allowed := by
  cases ts with
  | nil => exact (hk .absent).allow fun b => by simp [Term.absent, Term.binders]
  | cons t ts =>
    obtain ⟨ht, hts⟩ := List.forall_mem_cons.mp hts
    cases ts with
    | nil => exact thrifty_cps t ht hk
    | cons u ts =>
      rw [cpsSequence]
      split
      · exact thrifty_cpsSequence (u :: ts) hts hk
      · refine thrifty_cps t ht fun v => ?_
        refine (thrifty_cpsSequence (u :: ts) hts hk).bind v.binders (fun rest => ?_) fun b => ?_
        · refine thrifty_pure fun b => ?_
          split
          · simp
          · simp [Term.binders, Term.bindersAll]
        · simp
termination_by structural ts

theorem thrifty_cpsArguments (ts : List Tree)
    (hts : ∀ t ∈ ts, Throughout (PlainUnless refused) t) (callee : Tree) (done : List Tree) :
    Thrifty refused (cpsArguments ts callee done) (callee.binders ++ Term.bindersAll done) := by
  cases ts with
  | nil => exact thrifty_pure fun b => by simp [Term.binders]
  | cons t ts =>
    obtain ⟨ht, hts⟩ := List.forall_mem_cons.mp hts
    refine thrifty_cps t ht fun v => ?_
    refine (thrifty_cpsArguments ts hts callee (done ++ [v])).allow fun b => ?_
    simp [Term.bindersAll_eq_flatMap]
termination_by structural ts

theorem thrifty_cpsBindings (bs : List (Binding Tree))
    (hbs : ThroughoutBindings (PlainUnless refused) bs) {body : Cont → Transform Tree}
    (hbody : ∀ {k allowed}, (∀ v, Thrifty refused (k v) (allowed ++ v.binders)) →
      Thrifty refused (body k) allowed)
    {k : Cont} {allowed : List Name} (hk : ∀ v, Thrifty refused (k v) (allowed ++ v.binders)) :
    Thrifty refused (cpsBindings bs body k) allowed := by
  cases bs with
  | nil => exact hbody hk
  | cons b bs =>
    obtain ⟨x, t?⟩ := b
    have hx : ¬ Generated x := hbs.ordinary _ List.mem_cons_self
    cases t? with
    | none =>
      refine thrifty_fresh (by decide) fun n => ?_
      refine (thrifty_cpsBindings bs hbs.tail hbody (thrifty_jump (nameOf "K" n))).bind
        (nameOf "K" n :: allowed) (fun inner => ?_) fun b => by simp
      refine (thrifty_reify hk).bind (nameOf "K" n :: inner.binders) (fun after => ?_) fun b => ?_
      · refine (thrifty_binding (nameOf "K" n) hx inner after .absent).allow fun b => ?_
        simp [Term.absent, Term.binders]
      · simp only [List.count_append, List.count_cons]
        omega
    | some t =>
      refine thrifty_fresh (by decide) fun n => ?_
      refine (thrifty_cpsBindings bs hbs.tail hbody (thrifty_jump (nameOf "K" n))).bind
        (nameOf "K" n :: allowed) (fun inner => ?_) fun b => by simp
      refine (thrifty_reify hk).bind (nameOf "K" n :: inner.binders) (fun after => ?_) fun b => ?_
      · exact thrifty_cps t hbs.head fun v => thrifty_binding (nameOf "K" n) hx inner after v
      · simp only [List.count_append, List.count_cons]
        omega
termination_by structural bs

end

end Transform

/-- **The transform of a tree without generated names accounts for its names**, where what is done
with the value uses no generated name more often than the value does. -/
theorem Tree.accounts_transformWith {t : Tree} {refused : TransformError → Prop}
    (ht : Throughout (PlainUnless refused) t)
    (hfault : ∀ fault, t.check = .error fault → refused (.malformed fault)) {k : Tree → Tree}
    (hk : ∀ v b, (k v).binders.count b ≤ v.binders.count b) (s : Symbols) :
    Transform.Accounts refused [] s (t.transformWith s k) := by
  rw [Tree.transformWith, Transform.transform]
  cases hcheck : t.check with
  | error fault => exact ⟨Nat.le_refl _, hfault fault hcheck⟩
  | ok u => exact Transform.thrifty_cps t ht (fun v => Transform.thrifty_pure (hk v)) s

/-- **A tame tree has a transform, no two functions of which have a generated parameter in
common.** -/
theorem Tame.exists_transform {t : Tree} (h : Tame t) :
    ∃ m, t.transform = .ok m ∧ m.binders.Nodup := by
  have hplain : Throughout (PlainUnless fun _ => False) t := fun s hs => (h.plain s hs).unless _
  have hfault (fault : Malformed) (hcheck : t.check = .error fault) : False := by
    rw [h.check] at hcheck
    cases hcheck
  have haccounts : Transform.Accounts (fun _ => False) [] .new (t.transformWith .new id) :=
    Tree.accounts_transformWith hplain hfault (fun _ _ => Nat.le_refl _) .new
  obtain ⟨⟨r, s⟩, hr⟩ : ∃ p, t.transformWith .new id = p := ⟨_, rfl⟩
  rw [hr] at haccounts
  cases r with
  | error e => exact haccounts.2.elim
  | ok m => exact ⟨m, congrArg Prod.fst hr, haccounts.nodup⟩

end LetLambda
