import LetLambda.Proofs.SourceErrors

/-!
# What the transform refuses

A transform fails for one of two reasons. The tree is malformed, and then it is refused before
anything is done; or the transform comes by an assignment to something other than a variable. It
does not come by every part of a tree: a pure term of a sequence is dropped unless it is the last
one, and whatever it holds goes unseen, function literals and all. The parts that are not inside
such a term are exposed (`ExposedIn`), and a well-formed tree is refused just if one of them is an
assignment of that kind (`transformWith_failures`).

The transform of a term runs its continuation, so what comes after the term may fail while the term
is being transformed, before or after the term's own parts. The induction therefore says both of a
transform that succeeds: that its continuation has, and that the term is clean (`ends_clean_cps`).
-/

namespace LetLambda

/-! ### Exposed parts -/

/-- The part `a` stands in a tree, outside the pure terms of its sequences that are not last. -/
inductive ExposedIn (a : Tree) : Tree → Prop
  | self : ExposedIn a a
  | target {target value : Tree} (h : ExposedIn a target) : ExposedIn a (.assign target value)
  | value {target value : Tree} (h : ExposedIn a value) : ExposedIn a (.assign target value)
  | left {op : String} {left right : Tree} (h : ExposedIn a left) :
      ExposedIn a (.binary op left right)
  | right {op : String} {left right : Tree} (h : ExposedIn a right) :
      ExposedIn a (.binary op left right)
  | negate {body : Tree} (h : ExposedIn a body) : ExposedIn a (.negate body)
  /-- A term of a sequence is looked into if it is not pure, or if no other term is after it. -/
  | item {before after : List Tree} {t : Tree} (h : ExposedIn a t)
      (kept : t.isPure = true → after = []) : ExposedIn a (.seq (before ++ t :: after))
  | callee {callee : Tree} {args : List Tree} (h : ExposedIn a callee) :
      ExposedIn a (.call callee args)
  | argument {callee t : Tree} {args : List Tree} (h : ExposedIn a t) (mem : t ∈ args) :
      ExposedIn a (.call callee args)
  | body {i : Unit} {name? : Option Name} {params : List Name} {body : Tree}
      (h : ExposedIn a body) : ExposedIn a (.function i name? params body)
  | test {test consequent : Tree} {alternative? : Option Tree} (h : ExposedIn a test) :
      ExposedIn a (.conditional test consequent alternative?)
  | consequent {test consequent : Tree} {alternative? : Option Tree}
      (h : ExposedIn a consequent) : ExposedIn a (.conditional test consequent alternative?)
  | alternative {test consequent alternative : Tree} (h : ExposedIn a alternative) :
      ExposedIn a (.conditional test consequent (some alternative))
  | definition {x : Name} {t body : Tree} {bindings : List (Binding Tree)} (h : ExposedIn a t)
      (mem : ⟨x, some t⟩ ∈ bindings) : ExposedIn a (.declare bindings body)
  | scope {body : Tree} {bindings : List (Binding Tree)} (h : ExposedIn a body) :
      ExposedIn a (.declare bindings body)

/-- An exposed part of a tree that assigns to something other than a variable. -/
structure Misassigns (t a : Tree) : Prop where
  exposed : ExposedIn a t
  assignment : a.isAssignment = true
  target : a.assigned? = none

/-- A tree without such a part. -/
def Clean (t : Tree) : Prop := ∀ a, ¬ Misassigns t a

section

variable {a t u left right body callee test consequent : Tree} {alternative? : Option Tree}
  {items args : List Tree} {bindings : List (Binding Tree)} {op : String} {x : Name}

/-! In which parts of a term such an assignment can stand, for each form of term. -/

theorem clean_of_leaf (h : ∀ a, ExposedIn a t → a = t) (ht : t.isAssignment = false) : Clean t := by
  rintro a ⟨hexposed, ha, -⟩
  rw [h a hexposed, ht] at ha
  cases ha

theorem clean_var (x : Name) : Clean (.var x) :=
  clean_of_leaf (fun a h => by cases h; rfl) rfl

theorem misassigns_assign_var_iff :
    Misassigns (.assign (.var x) t) a ↔ Misassigns t a := by
  constructor
  · rintro ⟨hexposed, ha, htarget⟩
    cases hexposed with
    | self => cases htarget
    | target h => exact absurd ⟨h, ha, htarget⟩ (clean_var x a)
    | value h => exact ⟨h, ha, htarget⟩
  · intro h
    exact ⟨.value h.exposed, h.assignment, h.target⟩

theorem misassigns_negate_iff : Misassigns (.negate body) a ↔ Misassigns body a := by
  constructor
  · rintro ⟨hexposed, ha, htarget⟩
    cases hexposed with
    | self => cases ha
    | negate h => exact ⟨h, ha, htarget⟩
  · intro h
    exact ⟨.negate h.exposed, h.assignment, h.target⟩

theorem misassigns_binary_iff :
    Misassigns (.binary op left right) a ↔ Misassigns left a ∨ Misassigns right a := by
  constructor
  · rintro ⟨hexposed, ha, htarget⟩
    cases hexposed with
    | self => cases ha
    | left h => exact .inl ⟨h, ha, htarget⟩
    | right h => exact .inr ⟨h, ha, htarget⟩
  · rintro (h | h)
    · exact ⟨.left h.exposed, h.assignment, h.target⟩
    · exact ⟨.right h.exposed, h.assignment, h.target⟩

theorem misassigns_function_iff {i : Unit} {name? : Option Name} {params : List Name} :
    Misassigns (.function i name? params body) a ↔ Misassigns body a := by
  constructor
  · rintro ⟨hexposed, ha, htarget⟩
    cases hexposed with
    | self => cases ha
    | body h => exact ⟨h, ha, htarget⟩
  · intro h
    exact ⟨.body h.exposed, h.assignment, h.target⟩

theorem misassigns_call_iff :
    Misassigns (.call callee args) a ↔ Misassigns callee a ∨ ∃ t ∈ args, Misassigns t a := by
  constructor
  · rintro ⟨hexposed, ha, htarget⟩
    cases hexposed with
    | self => cases ha
    | callee h => exact .inl ⟨h, ha, htarget⟩
    | argument h mem => exact .inr ⟨_, mem, h, ha, htarget⟩
  · rintro (h | ⟨t, mem, h⟩)
    · exact ⟨.callee h.exposed, h.assignment, h.target⟩
    · exact ⟨.argument h.exposed mem, h.assignment, h.target⟩

theorem misassigns_conditional_iff :
    Misassigns (.conditional test consequent alternative?) a ↔
      Misassigns test a ∨ Misassigns consequent a ∨ ∃ t ∈ alternative?, Misassigns t a := by
  constructor
  · rintro ⟨hexposed, ha, htarget⟩
    cases hexposed with
    | self => cases ha
    | test h => exact .inl ⟨h, ha, htarget⟩
    | consequent h => exact .inr (.inl ⟨h, ha, htarget⟩)
    | alternative h => exact .inr (.inr ⟨_, rfl, h, ha, htarget⟩)
  · rintro (h | h | ⟨t, ⟨⟩, h⟩)
    · exact ⟨.test h.exposed, h.assignment, h.target⟩
    · exact ⟨.consequent h.exposed, h.assignment, h.target⟩
    · exact ⟨.alternative h.exposed, h.assignment, h.target⟩

theorem misassigns_declare_iff :
    Misassigns (.declare bindings body) a ↔
      (∃ b ∈ bindings, ∃ t ∈ b.value?, Misassigns t a) ∨ Misassigns body a := by
  constructor
  · rintro ⟨hexposed, ha, htarget⟩
    cases hexposed with
    | self => cases ha
    | definition h mem => exact .inl ⟨_, mem, _, rfl, h, ha, htarget⟩
    | scope h => exact .inr ⟨h, ha, htarget⟩
  · rintro (⟨⟨x, value?⟩, mem, t, ⟨⟩, h⟩ | h)
    · exact ⟨.definition h.exposed mem, h.assignment, h.target⟩
    · exact ⟨.scope h.exposed, h.assignment, h.target⟩

theorem misassigns_seq_iff :
    Misassigns (.seq items) a ↔ ∃ before t after, items = before ++ t :: after ∧
      (t.isPure = true → after = []) ∧ Misassigns t a := by
  constructor
  · rintro ⟨hexposed, ha, htarget⟩
    cases hexposed with
    | self => cases ha
    | item h kept => exact ⟨_, _, _, rfl, kept, h, ha, htarget⟩
  · rintro ⟨before, t, after, rfl, kept, h⟩
    exact ⟨.item h.exposed kept, h.assignment, h.target⟩

theorem clean_seq_nil : Clean (.seq []) := by
  intro a h
  obtain ⟨before, t, after, hitems, -⟩ := misassigns_seq_iff.mp h
  simp at hitems

/-- The first term of a sequence is looked into if it is not pure, or if it is the last one too. -/
theorem misassigns_seq_cons_iff :
    Misassigns (.seq (t :: items)) a ↔
      (t.isPure = true → items = []) ∧ Misassigns t a ∨ Misassigns (.seq items) a := by
  rw [misassigns_seq_iff, misassigns_seq_iff]
  constructor
  · rintro ⟨before, u, after, hitems, kept, h⟩
    cases before with
    | nil =>
      cases hitems
      exact .inl ⟨kept, h⟩
    | cons s before =>
      cases hitems
      exact .inr ⟨before, u, after, rfl, kept, h⟩
  · rintro (⟨kept, h⟩ | ⟨before, u, after, rfl, kept, h⟩)
    · exact ⟨[], t, items, rfl, kept, h⟩
    · exact ⟨t :: before, u, after, rfl, kept, h⟩

end

/-! ### Transforms that succeed -/

namespace Transform

variable {refused : TransformError → Prop} {done done' : Prop}

/-- Whatever names have been given out, a transform succeeds only if `done` holds, and otherwise
fails with an error of `refused`. -/
abbrev EndsIf (refused : TransformError → Prop) (done : Prop) (x : Transform Tree) : Prop :=
  Ends refused (fun _ => done) x

theorem EndsIf.of_ok {x : Transform Tree} (h : EndsIf refused done x) {s : Symbols} {m : Tree}
    (hm : (x.run.run s).1 = .ok m) : done := by
  have hs := h s
  rwa [hm] at hs

theorem EndsIf.of_error {x : Transform Tree} (h : EndsIf refused done x) {s : Symbols}
    {e : TransformError} (he : (x.run.run s).1 = .error e) : refused e := by
  have hs := h s
  rwa [he] at hs

theorem EndsIf.mono {x : Transform Tree} (h : EndsIf refused done x) (hdone : done → done') :
    EndsIf refused done' x := by
  intro s
  cases hr : (x.run.run s).1 with
  | error e => exact h.of_error hr
  | ok m => exact hdone (h.of_ok hr)

theorem endsIf_reify {k : Cont} (hk : ∀ v, EndsIf refused done (k v)) :
    EndsIf refused done (reify k) :=
  (ends_fresh "R").bind fun _ _ => (hk _).bind fun _ h => ends_pure h

theorem endsIf_jump (target : Name) (v : Tree) : EndsIf refused True (jump target v) :=
  ends_pure trivial

mutual

/-- **The transform of a term succeeds only if its continuation does and the term is clean**, and
otherwise fails as the continuation does, or for an assignment of the term. -/
theorem ends_clean_cps (t : Tree) (ht : ∀ a, Misassigns t a → refused (.unsupported a)) {k : Cont}
    {done : Prop} (hk : ∀ v, EndsIf refused done (k v)) :
    EndsIf refused (done ∧ Clean t) (cps t k) := by
  cases t with
  | int n => exact (hk _).mono fun h => ⟨h, clean_of_leaf (fun a h => by cases h; rfl) rfl⟩
  | str s => exact (hk _).mono fun h => ⟨h, clean_of_leaf (fun a h => by cases h; rfl) rfl⟩
  | bool b => exact (hk _).mono fun h => ⟨h, clean_of_leaf (fun a h => by cases h; rfl) rfl⟩
  | var x => exact (hk _).mono fun h => ⟨h, clean_var x⟩
  | negate body =>
    simp only [Clean, misassigns_negate_iff] at ht ⊢
    exact ends_clean_cps body ht fun v => hk (.negate v)
  | binary op left right =>
    simp only [misassigns_binary_iff, or_imp, forall_and] at ht
    -- the right operand is transformed by the continuation of the left one
    refine (ends_clean_cps left ht.1 fun l =>
      ends_clean_cps right ht.2 fun r => hk (.binary op l r)).mono ?_
    rintro ⟨⟨hdone, hright⟩, hleft⟩
    refine ⟨hdone, fun a ha => ?_⟩
    rcases misassigns_binary_iff.mp ha with ha | ha
    · exact hleft a ha
    · exact hright a ha
  | assign target value =>
    cases target with
    | var x =>
      simp only [Clean, misassigns_assign_var_iff] at ht ⊢
      exact ends_clean_cps value ht fun v => hk (.assign (.var x) v)
    | _ => exact ends_throw (ht _ ⟨.self, rfl, rfl⟩)
  | function i name? params body =>
    simp only [Clean, misassigns_function_iff] at ht ⊢
    refine (ends_fresh "K").bind fun ret _ => ?_
    refine (ends_clean_cps body ht (endsIf_jump ret)).bind fun body' hbody => ?_
    exact (hk _).mono fun h => ⟨h, hbody.2⟩
  | conditional test consequent alternative? =>
    simp only [misassigns_conditional_iff, or_imp, forall_and] at ht
    obtain ⟨htest, hconsequent, halternative⟩ := ht
    -- the continuation comes first, then the arms, which end in a jump
    have hclean (h : (done ∧ Clean consequent ∧ ∀ t ∈ alternative?, Clean t) ∧ Clean test) :
        done ∧ Clean (.conditional test consequent alternative?) := by
      refine ⟨h.1.1, fun a ha => ?_⟩
      rcases misassigns_conditional_iff.mp ha with ha | ha | ⟨t, mem, ha⟩
      · exact h.2 a ha
      · exact h.1.2.1 a ha
      · exact h.1.2.2 t mem a ha
    cases alternative? with
    | none =>
      refine (ends_clean_cps test htest fun v => ?_).mono hclean
      refine (ends_fresh "I").bind fun join _ => (endsIf_reify hk).bind fun rest hdone => ?_
      refine (ends_clean_cps consequent hconsequent (endsIf_jump join)).bind fun c hc => ?_
      exact (endsIf_jump join .absent).bind fun _ _ => ends_pure ⟨hdone, hc.2, nofun⟩
    | some alternative =>
      refine (ends_clean_cps test htest fun v => ?_).mono hclean
      refine (ends_fresh "I").bind fun join _ => (endsIf_reify hk).bind fun rest hdone => ?_
      refine (ends_clean_cps consequent hconsequent (endsIf_jump join)).bind fun c hc => ?_
      have halternative (a : Tree) (ha : Misassigns alternative a) : refused (.unsupported a) :=
        halternative a ⟨alternative, rfl, ha⟩
      refine (ends_clean_cps alternative halternative (endsIf_jump join)).bind fun _ ha => ?_
      refine ends_pure ⟨hdone, hc.2, ?_⟩
      rintro _ ⟨⟩
      exact ha.2
  | seq items => exact ends_clean_cpsSequence items ht hk
  | call callee args =>
    simp only [misassigns_call_iff, or_imp, forall_and] at ht
    refine (ends_clean_cps callee ht.1 fun f => (endsIf_reify hk).bind fun ret hdone =>
      (ends_clean_cpsArguments args ?_ f [ret]).mono fun hargs => And.intro hdone hargs).mono ?_
    · intro t mem a ha
      exact ht.2 a ⟨t, mem, ha⟩
    · rintro ⟨⟨hdone, hargs⟩, hcallee⟩
      refine ⟨hdone, fun a ha => ?_⟩
      rcases misassigns_call_iff.mp ha with ha | ⟨t, mem, ha⟩
      · exact hcallee a ha
      · exact hargs t mem a ha
  | declare bindings body =>
    simp only [misassigns_declare_iff, or_imp, forall_and] at ht
    have hbody {k : Cont} {done : Prop} (hk : ∀ v, EndsIf refused done (k v)) :
        EndsIf refused (done ∧ Clean body) (cps body k) := ends_clean_cps body ht.2 hk
    refine (ends_clean_cpsBindings bindings ?_ hbody hk).mono ?_
    · intro b mem t hvalue a ha
      exact ht.1 a ⟨b, mem, t, hvalue, ha⟩
    · rintro ⟨hdone, hbody, hbindings⟩
      refine ⟨hdone, fun a ha => ?_⟩
      rcases misassigns_declare_iff.mp ha with ⟨b, mem, t, hvalue, ha⟩ | ha
      · exact hbindings b mem t hvalue a ha
      · exact hbody a ha
termination_by structural t

theorem ends_clean_cpsSequence (ts : List Tree)
    (hts : ∀ a, Misassigns (.seq ts) a → refused (.unsupported a)) {k : Cont} {done : Prop}
    (hk : ∀ v, EndsIf refused done (k v)) :
    EndsIf refused (done ∧ Clean (.seq ts)) (cpsSequence ts k) := by
  cases ts with
  | nil => exact (hk _).mono fun h => ⟨h, clean_seq_nil⟩
  | cons t ts =>
    simp only [misassigns_seq_cons_iff, or_imp, forall_and] at hts
    obtain ⟨ht, hts⟩ := hts
    cases ts with
    | nil =>
      refine (ends_clean_cps t (fun a ha => ht a ⟨fun _ => rfl, ha⟩) hk).mono ?_
      rintro ⟨hdone, hclean⟩
      refine ⟨hdone, fun a ha => ?_⟩
      rcases misassigns_seq_cons_iff.mp ha with ⟨-, ha⟩ | ha
      · exact hclean a ha
      · exact clean_seq_nil a ha
    | cons u ts =>
      rw [cpsSequence]
      split
      · -- a pure term is dropped with all that it holds
        next hpure =>
        refine (ends_clean_cpsSequence (u :: ts) hts hk).mono ?_
        rintro ⟨hdone, hrest⟩
        refine ⟨hdone, fun a ha => ?_⟩
        rcases misassigns_seq_cons_iff.mp ha with ⟨kept, -⟩ | ha
        · cases kept hpure
        · exact hrest a ha
      · next hpure =>
        refine (ends_clean_cps t (fun a ha => ht a ⟨fun h => absurd h hpure, ha⟩) fun v =>
          (ends_clean_cpsSequence (u :: ts) hts hk).bind fun rest h => ends_pure h).mono ?_
        rintro ⟨⟨hdone, hrest⟩, hclean⟩
        refine ⟨hdone, fun a ha => ?_⟩
        rcases misassigns_seq_cons_iff.mp ha with ⟨-, ha⟩ | ha
        · exact hclean a ha
        · exact hrest a ha
termination_by structural ts

theorem ends_clean_cpsArguments (ts : List Tree)
    (hts : ∀ t ∈ ts, ∀ a, Misassigns t a → refused (.unsupported a)) (callee : Tree)
    (before : List Tree) : EndsIf refused (∀ t ∈ ts, Clean t) (cpsArguments ts callee before) := by
  cases ts with
  | nil => exact ends_pure (List.forall_mem_nil _)
  | cons t ts =>
    obtain ⟨ht, hts⟩ := List.forall_mem_cons.mp hts
    refine (ends_clean_cps t ht fun v =>
      ends_clean_cpsArguments ts hts callee (before ++ [v])).mono ?_
    rintro ⟨hrest, hclean⟩
    exact List.forall_mem_cons.mpr ⟨hclean, hrest⟩
termination_by structural ts

theorem ends_clean_cpsBindings (bs : List (Binding Tree))
    (hbs : ∀ b ∈ bs, ∀ t ∈ b.value?, ∀ a, Misassigns t a → refused (.unsupported a))
    {body : Cont → Transform Tree} {clean : Prop}
    (hbody : ∀ {k : Cont} {done : Prop}, (∀ v, EndsIf refused done (k v)) →
      EndsIf refused (done ∧ clean) (body k))
    {k : Cont} {done : Prop} (hk : ∀ v, EndsIf refused done (k v)) :
    EndsIf refused (done ∧ clean ∧ ∀ b ∈ bs, ∀ t ∈ b.value?, Clean t) (cpsBindings bs body k) := by
  cases bs with
  | nil => exact (hbody hk).mono fun h => ⟨h.1, h.2, List.forall_mem_nil _⟩
  | cons b bs =>
    obtain ⟨x, t?⟩ := b
    obtain ⟨hb, htail⟩ := List.forall_mem_cons.mp hbs
    cases t? with
    | none =>
      refine (ends_fresh "K").bind fun ret _ => ?_
      refine (ends_clean_cpsBindings bs htail hbody (endsIf_jump ret)).bind fun inner hinner => ?_
      refine (endsIf_reify hk).bind fun after hdone => ends_pure ?_
      exact ⟨hdone, hinner.2.1, List.forall_mem_cons.mpr ⟨nofun, hinner.2.2⟩⟩
    | some t =>
      refine (ends_fresh "K").bind fun ret _ => ?_
      refine (ends_clean_cpsBindings bs htail hbody (endsIf_jump ret)).bind fun inner hinner => ?_
      refine (endsIf_reify hk).bind fun after hdone => ?_
      refine (ends_clean_cps t (hb t rfl) fun v => ends_pure hdone).mono ?_
      rintro ⟨hdone, hclean⟩
      refine ⟨hdone, hinner.2.1, List.forall_mem_cons.mpr ⟨?_, hinner.2.2⟩⟩
      rintro _ ⟨⟩
      exact hclean
termination_by structural bs

end

end Transform

theorem Tree.transformWith_of_malformed {t : Tree} {fault : Malformed} (h : t.check = .error fault)
    (symbols : Symbols) (k : Tree → Tree) :
    t.transformWith symbols k = (.error (.malformed fault), symbols) := by
  rw [Tree.transformWith, Transform.transform, h]
  rfl

/-- The transform of a well-formed tree succeeds only if the tree is clean, and otherwise fails for
an assignment of it. -/
theorem Transform.endsIf_transform {t : Tree} (h : t.check = .ok ()) (k : Tree → Tree) :
    EndsIf (fun e => ∃ a, Misassigns t a ∧ e = .unsupported a) (Clean t) (transform t k) := by
  rw [transform, h]
  have hends : EndsIf (fun e => ∃ a, Misassigns t a ∧ e = .unsupported a) (True ∧ Clean t)
      (cps t fun v => return k v) :=
    ends_clean_cps t (fun a ha => ⟨a, ha, rfl⟩) fun v => ends_pure trivial
  exact hends.mono And.right

/-- **When the transform of a tree fails.** A malformed tree is refused as the check refuses it, and
no name has been drawn then. A well-formed tree is refused just if an exposed part of it assigns to
something other than a variable, and what is reported is such a part. In all other cases the
transform succeeds. -/
theorem transformWith_failures (symbols : Symbols) (t : Tree) (k : Tree → Tree) :
    (∀ fault, (t.transformWith symbols k).1 = .error (.malformed fault) ↔ t.check = .error fault) ∧
    (∀ fault, t.check = .error fault → (t.transformWith symbols k).2 = symbols) ∧
    (t.check = .ok () →
      ((∃ a, (t.transformWith symbols k).1 = .error (.unsupported a)) ↔ ∃ a, Misassigns t a) ∧
      (∀ a, (t.transformWith symbols k).1 = .error (.unsupported a) → Misassigns t a) ∧
      ((∃ m, (t.transformWith symbols k).1 = .ok m) ↔ ¬ ∃ a, Misassigns t a)) := by
  cases hcheck : t.check with
  | error fault =>
    rw [Tree.transformWith_of_malformed hcheck]
    refine ⟨fun other => ?_, fun _ _ => rfl, nofun⟩
    simp
  | ok u =>
    have hends := Transform.endsIf_transform hcheck k
    have hclean {m : Tree} (hm : (t.transformWith symbols k).1 = .ok m) : Clean t := hends.of_ok hm
    have hrefused {e : TransformError} (he : (t.transformWith symbols k).1 = .error e) :
        ∃ a, Misassigns t a ∧ e = .unsupported a := hends.of_error he
    have hreported (a : Tree) (ha : (t.transformWith symbols k).1 = .error (.unsupported a)) :
        Misassigns t a := by
      obtain ⟨b, hb, heq⟩ := hrefused ha
      cases heq
      exact hb
    refine ⟨fun fault => ⟨fun h => ?_, nofun⟩, nofun, fun _ => ⟨?_, hreported, ?_⟩⟩
    · obtain ⟨a, -, heq⟩ := hrefused h
      cases heq
    · refine ⟨fun ⟨a, ha⟩ => ⟨a, hreported a ha⟩, fun ⟨a, ha⟩ => ?_⟩
      cases hresult : (t.transformWith symbols k).1 with
      | ok m => exact absurd ha (hclean hresult a)
      | error e =>
        obtain ⟨b, -, rfl⟩ := hrefused hresult
        exact ⟨b, rfl⟩
    · refine ⟨fun ⟨m, hm⟩ ⟨a, ha⟩ => hclean hm a ha, fun h => ?_⟩
      cases hresult : (t.transformWith symbols k).1 with
      | ok m => exact ⟨m, rfl⟩
      | error e =>
        obtain ⟨a, ha, -⟩ := hrefused hresult
        exact absurd ⟨a, ha⟩ h

/-- A function literal that assigns to a call. -/
def straying : Tree := .function () none ["x"] (.assign (.call (.var "x") []) (.int 1))

/-- Such a literal is dropped at the beginning of a sequence, but not at its end. -/
theorem transformWith_failures_straying :
    (¬ ∃ a, Misassigns (.seq [straying, .int 2]) a) ∧
    ExposedIn (.assign (.call (.var "x") []) (.int 1)) (.seq [straying, straying]) ∧
    ∃ a, (Tree.transformWith .new (.seq [straying, straying]) id).1 = .error (.unsupported a) := by
  have hgives : (Tree.transformWith .new (.seq [straying, .int 2]) id).1 = .ok (.int 2) := by
    decide +kernel
  have hexposed : ExposedIn (.assign (.call (.var "x") []) (.int 1))
      (.seq ([straying] ++ straying :: [])) := .item (.body .self) fun _ => rfl
  obtain ⟨-, -, hclean⟩ := transformWith_failures .new (.seq [straying, .int 2]) id
  obtain ⟨-, -, hfails⟩ := transformWith_failures .new (.seq [straying, straying]) id
  refine ⟨(hclean (by decide)).2.2.mp ⟨_, hgives⟩, hexposed, (hfails (by decide)).1.mpr ?_⟩
  exact ⟨_, hexposed, rfl, rfl⟩

end LetLambda
