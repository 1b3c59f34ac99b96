import LetLambda.Cps.Transform
import LetLambda.Proofs.Marks

/-!
# The transform as a relation

The transform draws names and is told by functions what to do with a value. What it gives can be
said without either: `Passes t K m` says that `m` is a transform of `t` in which the term that
stands for the value of `t` ends up where the relation `K` says. Names are only known to be
generated, and both terms may carry marks.

Everything that the transform gives is related in this way (`passes_of_cps`).
-/

namespace LetLambda

namespace Transform

/-! ### What a transform gives -/

variable {α β : Type}

/-- With the supply `s`, the transform gives `a` and leaves `s'`. -/
def Yields (x : Transform α) (s : Symbols) (a : α) (s' : Symbols) : Prop :=
  x.run.run s = (.ok a, s')

theorem yields_pure_iff {a b : α} {s s' : Symbols} :
    Yields (pure a) s b s' ↔ b = a ∧ s' = s := by
  constructor
  · intro h
    cases h
    exact ⟨rfl, rfl⟩
  · rintro ⟨rfl, rfl⟩
    rfl

theorem yields_bind_iff {x : Transform α} {f : α → Transform β} {s s' : Symbols} {b : β} :
    Yields (x >>= f) s b s' ↔ ∃ a s₁, Yields x s a s₁ ∧ Yields (f a) s₁ b s' := by
  have hb : (x >>= f).run.run s = match x.run.run s with
    | (.ok a, s₁) => (f a).run.run s₁
    | (.error e, s₁) => (.error e, s₁) := by
    rw [ExceptT.run_bind, StateT.run_bind]
    obtain ⟨⟨r, s₁⟩, hr⟩ : ∃ p, x.run.run s = p := ⟨_, rfl⟩
    rw [hr]
    cases r <;> rfl
  unfold Yields
  rw [hb]
  obtain ⟨⟨r, s₁⟩, hr⟩ : ∃ p, x.run.run s = p := ⟨_, rfl⟩
  rw [hr]
  cases r with
  | error e =>
    constructor
    · intro h
      cases h
    · rintro ⟨a, s₂, h, -⟩
      cases h
  | ok a =>
    constructor
    · intro h
      exact ⟨a, s₁, rfl, h⟩
    · rintro ⟨a, s₂, h, hf⟩
      cases h
      exact hf

theorem yields_fresh_iff {stem : String} {x : Name} {s s' : Symbols} :
    Yields (fresh stem) s x s' ↔
      x = Symbols.nameOf stem (s.issued + 1) ∧ s' = ⟨s.issued + 1⟩ := by
  constructor
  · intro h
    cases h
    exact ⟨rfl, rfl⟩
  · rintro ⟨rfl, rfl⟩
    rfl

theorem not_yields_throw {e : TransformError} {a : α} {s s' : Symbols} :
    ¬ Yields (throw e) s a s' := nofun

end Transform

/-! ### The relation -/

variable {ι κ : Type}

/-- Where the value of a term ends up: the term that stands for it, and the term that it becomes a
part of. -/
abbrev Receiver (κ : Type) := Term κ → Term κ → Prop

namespace Receiver

/-- The value is handed to the function named `target`. -/
def jump (target : Name) : Receiver κ := fun v m => m = .call (.var target) [v]

/-- A function of the language that does with its parameter what `K` says. -/
def Reified (K : Receiver κ) (r : Term κ) : Prop :=
  ∃ i n body, r = .function i none [Symbols.nameOf "R" n] body ∧
    K (.var (Symbols.nameOf "R" n)) body

/-- A conditional whose arms go on with `rest`, which they know as `join`. -/
def Branches (join : Name) (test consequent alternative rest m : Term κ) : Prop :=
  ∃ i, m = .call (.function i none [join] (.conditional test consequent (some alternative))) [rest]

end Receiver

open Receiver (Reified Branches)
open Symbols (nameOf)

mutual

/-- `m` is a transform of a term, whose value ends up where `K` says. -/
def Passes : Term ι → Receiver κ → Term κ → Prop
  | .int n, K, m => K (.int n) m
  | .str s, K, m => K (.str s) m
  | .bool b, K, m => K (.bool b) m
  | .var x, K, m => K (.var x) m
  | .negate t, K, m => Passes t (fun v m => K (.negate v) m) m
  | .binary op left right, K, m =>
    Passes left (fun l m => Passes right (fun r m => K (.binary op l r) m) m) m
  | .assign (.var x) t, K, m => Passes t (fun v m => K (.assign (.var x) v) m) m
  | .assign _ _, _, _ => False
  | .declare bindings body, K, m => PassesBindings bindings (fun K m => Passes body K m) K m
  | .function _ name? params body, K, m =>
    ∃ i n body', Passes body (.jump (nameOf "K" n)) body' ∧
      K (.function i name? (nameOf "K" n :: params) body') m
  | .conditional test consequent none, K, m =>
    Passes test (fun v m => ∃ n rest c, Reified K rest ∧
      Passes consequent (.jump (nameOf "I" n)) c ∧
      Branches (nameOf "I" n) v c (.call (.var (nameOf "I" n)) [.absent]) rest m) m
  | .conditional test consequent (some alternative), K, m =>
    Passes test (fun v m => ∃ n rest c a, Reified K rest ∧
      Passes consequent (.jump (nameOf "I" n)) c ∧ Passes alternative (.jump (nameOf "I" n)) a ∧
      Branches (nameOf "I" n) v c a rest m) m
  | .seq items, K, m => PassesSequence items K m
  | .call callee args, K, m =>
    Passes callee (fun f m => PassesAll args (fun vs m =>
      ∃ ret, Reified K ret ∧ m = .call f (ret :: vs)) m) m
termination_by structural t => t

/-- `m` is a transform of a sequence. -/
def PassesSequence : List (Term ι) → Receiver κ → Term κ → Prop
  | [], K, m => K .absent m
  | [t], K, m => Passes t K m
  | t :: u :: ts, K, m =>
    if t.erase.isPure then PassesSequence (u :: ts) K m
    else Passes t (fun v m => ∃ rest, PassesSequence (u :: ts) K rest ∧
      m = if v.erase.isPure then rest else .seq [v, rest]) m
termination_by structural ts => ts

/-- `m` is a transform of terms one after another, whose values end up together. -/
def PassesAll : List (Term ι) → (List (Term κ) → Term κ → Prop) → Term κ → Prop
  | [], K, m => K [] m
  | t :: ts, K, m => Passes t (fun v m => PassesAll ts (fun vs m => K (v :: vs) m) m) m
termination_by structural ts => ts

/-- `m` is a transform of bindings around a body. -/
def PassesBindings : List (Binding (Term ι)) → (Receiver κ → Term κ → Prop) → Receiver κ →
    Term κ → Prop
  | [], body, K, m => body K m
  | ⟨x, none⟩ :: bs, body, K, m =>
    ∃ i n inner after, PassesBindings bs body (.jump (nameOf "K" n)) inner ∧ Reified K after ∧
      m = .call (.function i none [nameOf "K" n, x] inner) [after, .absent]
  | ⟨x, some t⟩ :: bs, body, K, m =>
    Passes t (fun v m => ∃ i n inner after, PassesBindings bs body (.jump (nameOf "K" n)) inner ∧
      Reified K after ∧ m = .call (.function i none [nameOf "K" n, x] inner) [after, v]) m
termination_by structural bs => bs

end

theorem Receiver.Reified.mono {K K' : Receiver κ} (h : ∀ v m, K v m → K' v m) {r : Term κ}
    (hr : Reified K r) : Reified K' r := by
  obtain ⟨i, n, body, rfl, hb⟩ := hr
  exact ⟨i, n, body, rfl, h _ _ hb⟩

mutual

/-- A transform does not care what a receiver does with a value. -/
theorem Passes.mono (t : Term ι) {K K' : Receiver κ} (h : ∀ v m, K v m → K' v m) {m : Term κ}
    (ht : Passes t K m) : Passes t K' m := by
  match t with
  | .int n => exact h _ _ ht
  | .str s => exact h _ _ ht
  | .bool b => exact h _ _ ht
  | .var x => exact h _ _ ht
  | .negate t => exact Passes.mono t (fun v m => h _ _) ht
  | .binary op left right =>
    exact Passes.mono left (fun l m hl => Passes.mono right (fun r m => h _ _) hl) ht
  | .assign (.var x) t => exact Passes.mono t (fun v m => h _ _) ht
  | .declare bindings body =>
    have hbody (K K' : Receiver κ) (h : ∀ v m, K v m → K' v m) (m : Term κ)
        (hb : Passes body K m) : Passes body K' m := Passes.mono body h hb
    exact PassesBindings.mono bindings hbody h ht
  | .function _ name? params body =>
    obtain ⟨i, n, body', hb, hk⟩ := ht
    exact ⟨i, n, body', hb, h _ _ hk⟩
  | .conditional test consequent none =>
    refine Passes.mono test ?_ ht
    rintro v m ⟨n, rest, c, hr, hc, hm⟩
    exact ⟨n, rest, c, hr.mono h, hc, hm⟩
  | .conditional test consequent (some alternative) =>
    refine Passes.mono test ?_ ht
    rintro v m ⟨n, rest, c, a, hr, hc, ha, hm⟩
    exact ⟨n, rest, c, a, hr.mono h, hc, ha, hm⟩
  | .seq items => exact PassesSequence.mono items h ht
  | .call callee args =>
    refine Passes.mono callee (fun f m hf => PassesAll.mono args ?_ hf) ht
    rintro vs m ⟨ret, hr, hm⟩
    exact ⟨ret, hr.mono h, hm⟩
termination_by structural t

theorem PassesSequence.mono (ts : List (Term ι)) {K K' : Receiver κ}
    (h : ∀ v m, K v m → K' v m) {m : Term κ} (ht : PassesSequence ts K m) :
    PassesSequence ts K' m := by
  match ts with
  | [] => exact h _ _ ht
  | [t] => exact Passes.mono t h ht
  | t :: u :: ts =>
    by_cases hp : t.erase.isPure
    · rw [PassesSequence, if_pos hp] at ht ⊢
      exact PassesSequence.mono (u :: ts) h ht
    · rw [PassesSequence, if_neg hp] at ht ⊢
      refine Passes.mono t ?_ ht
      rintro v m ⟨rest, hr, hm⟩
      exact ⟨rest, PassesSequence.mono (u :: ts) h hr, hm⟩
termination_by structural ts

theorem PassesAll.mono (ts : List (Term ι)) {K K' : List (Term κ) → Term κ → Prop}
    (h : ∀ vs m, K vs m → K' vs m) {m : Term κ} (ht : PassesAll ts K m) : PassesAll ts K' m := by
  match ts with
  | [] => exact h _ _ ht
  | t :: ts => exact Passes.mono t (fun v m hv => PassesAll.mono ts (fun vs m => h _ _) hv) ht
termination_by structural ts

theorem PassesBindings.mono (bs : List (Binding (Term ι)))
    {body body' : Receiver κ → Term κ → Prop}
    (hbody : ∀ K K' : Receiver κ, (∀ v m, K v m → K' v m) → ∀ m, body K m → body' K' m)
    {K K' : Receiver κ} (h : ∀ v m, K v m → K' v m) {m : Term κ}
    (hb : PassesBindings bs body K m) : PassesBindings bs body' K' m := by
  match bs with
  | [] => exact hbody K K' h m hb
  | ⟨x, none⟩ :: bs =>
    obtain ⟨i, n, inner, after, hi, ha, hm⟩ := hb
    exact ⟨i, n, inner, after, PassesBindings.mono bs hbody (fun _ _ => id) hi, ha.mono h, hm⟩
  | ⟨x, some t⟩ :: bs =>
    refine Passes.mono t ?_ hb
    rintro v m ⟨i, n, inner, after, hi, ha, hm⟩
    exact ⟨i, n, inner, after, PassesBindings.mono bs hbody (fun _ _ => id) hi, ha.mono h, hm⟩
termination_by structural bs

end

theorem Receiver.Reified.exists {α : Type} {K : α → Receiver κ} {r : Term κ}
    (hr : Reified (fun v m => ∃ a, K a v m) r) : ∃ a, Reified (K a) r := by
  obtain ⟨i, n, body, rfl, a, hb⟩ := hr
  exact ⟨a, i, n, body, rfl, hb⟩

mutual

/-- A transform uses its receiver once, so what the receiver chooses can be chosen in advance. -/
theorem Passes.exists {α : Type} (t : Term ι) {K : α → Receiver κ} {m : Term κ}
    (ht : Passes t (fun v m => ∃ a, K a v m) m) : ∃ a, Passes t (K a) m := by
  match t with
  | .int n => exact ht
  | .str s => exact ht
  | .bool b => exact ht
  | .var x => exact ht
  | .negate t => exact Passes.exists t ht
  | .binary op left right =>
    exact Passes.exists left (Passes.mono left (fun l m hl => Passes.exists right hl) ht)
  | .assign (.var x) t => exact Passes.exists t ht
  | .declare bindings body =>
    have hbody (K : α → Receiver κ) (m : Term κ) (hb : Passes body (fun v m => ∃ a, K a v m) m) :
        ∃ a, Passes body (K a) m := Passes.exists body hb
    exact PassesBindings.exists bindings hbody ht
  | .function _ name? params body =>
    obtain ⟨i, n, body', hb, a, hk⟩ := ht
    exact ⟨a, i, n, body', hb, hk⟩
  | .conditional test consequent none =>
    refine Passes.exists test (Passes.mono test ?_ ht)
    rintro v m ⟨n, rest, c, hr, hc, hm⟩
    obtain ⟨a, hr⟩ := hr.exists
    exact ⟨a, n, rest, c, hr, hc, hm⟩
  | .conditional test consequent (some alternative) =>
    refine Passes.exists test (Passes.mono test ?_ ht)
    rintro v m ⟨n, rest, c, b, hr, hc, hb, hm⟩
    obtain ⟨a, hr⟩ := hr.exists
    exact ⟨a, n, rest, c, b, hr, hc, hb, hm⟩
  | .seq items => exact PassesSequence.exists items ht
  | .call callee args =>
    refine Passes.exists callee (Passes.mono callee (fun f m hf => ?_) ht)
    refine PassesAll.exists args (PassesAll.mono args ?_ hf)
    rintro vs m ⟨ret, hr, hm⟩
    obtain ⟨a, hr⟩ := hr.exists
    exact ⟨a, ret, hr, hm⟩
termination_by structural t

theorem PassesSequence.exists {α : Type} (ts : List (Term ι)) {K : α → Receiver κ} {m : Term κ}
    (ht : PassesSequence ts (fun v m => ∃ a, K a v m) m) : ∃ a, PassesSequence ts (K a) m := by
  match ts with
  | [] => exact ht
  | [t] => exact Passes.exists t ht
  | t :: u :: ts =>
    by_cases hp : t.erase.isPure
    · simp only [PassesSequence, if_pos hp] at ht ⊢
      exact PassesSequence.exists (u :: ts) ht
    · simp only [PassesSequence, if_neg hp] at ht ⊢
      refine Passes.exists t (Passes.mono t ?_ ht)
      rintro v m ⟨rest, hr, hm⟩
      obtain ⟨a, hr⟩ := PassesSequence.exists (u :: ts) hr
      exact ⟨a, rest, hr, hm⟩
termination_by structural ts

theorem PassesAll.exists {α : Type} (ts : List (Term ι))
    {K : α → List (Term κ) → Term κ → Prop} {m : Term κ}
    (ht : PassesAll ts (fun vs m => ∃ a, K a vs m) m) : ∃ a, PassesAll ts (K a) m := by
  match ts with
  | [] => exact ht
  | t :: ts =>
    exact Passes.exists t (Passes.mono t (fun v m hv => PassesAll.exists ts hv) ht)
termination_by structural ts

theorem PassesBindings.exists {α : Type} (bs : List (Binding (Term ι)))
    {body : Receiver κ → Term κ → Prop}
    (hbody : ∀ (K : α → Receiver κ) m, body (fun v m => ∃ a, K a v m) m → ∃ a, body (K a) m)
    {K : α → Receiver κ} {m : Term κ}
    (hb : PassesBindings bs body (fun v m => ∃ a, K a v m) m) :
    ∃ a, PassesBindings bs body (K a) m := by
  match bs with
  | [] => exact hbody K m hb
  | ⟨x, none⟩ :: bs =>
    obtain ⟨i, n, inner, after, hi, ha, hm⟩ := hb
    obtain ⟨a, ha⟩ := ha.exists
    exact ⟨a, i, n, inner, after, hi, ha, hm⟩
  | ⟨x, some t⟩ :: bs =>
    refine Passes.exists t (Passes.mono t ?_ hb)
    rintro v m ⟨i, n, inner, after, hi, ha, hm⟩
    obtain ⟨a, ha⟩ := ha.exists
    exact ⟨a, i, n, inner, after, hi, ha, hm⟩
termination_by structural bs

end

/-! ### What the transform gives is related -/

open Transform

/-- Whatever a continuation of the transform gives, the receiver says where the value is. -/
def Receives (k : Cont) (K : Receiver κ) : Prop :=
  ∀ v s (m : Term κ) s', Yields (k v) s m.erase s' → ∃ u, u.erase = v ∧ K u m

theorem receives_jump (target : Name) : Receives (jump target) (.jump target : Receiver κ) := by
  intro v s m s' h
  obtain ⟨hm, -⟩ := yields_pure_iff.mp h
  cases Term.hasTree_of_erase_eq hm with
  | call hf hargs =>
    cases Term.hasTree_of_erase_eq hf
    cases hargs with
    | cons hu hnil => cases hnil; exact ⟨_, hu, rfl⟩

theorem reified_of_reify {k : Cont} {K : Receiver κ} (hk : Receives k K) {s s' : Symbols}
    {r : Term κ} (h : Yields (reify k) s r.erase s') : Reified K r := by
  obtain ⟨x, s₁, hx, h⟩ := yields_bind_iff.mp h
  obtain ⟨rfl, -⟩ := yields_fresh_iff.mp hx
  obtain ⟨body, s₂, hb, h⟩ := yields_bind_iff.mp h
  obtain ⟨hr, -⟩ := yields_pure_iff.mp h
  cases Term.hasTree_of_erase_eq hr with
  | function i _ _ ha =>
    subst ha
    obtain ⟨u, hu, hK⟩ := hk _ _ _ _ hb
    cases Term.hasTree_of_erase_eq hu
    exact ⟨i, _, _, rfl, hK⟩

theorem branches_of_erase {join : Name} {test consequent alternative rest : Tree} {m : Term κ}
    (h : m.erase = branches join test consequent alternative rest) :
    ∃ a b c r, Branches join a b c r m ∧ a.erase = test ∧ b.erase = consequent ∧
      c.erase = alternative ∧ r.erase = rest := by
  cases Term.hasTree_of_erase_eq h with
  | call hf hargs =>
    cases Term.hasTree_of_erase_eq hf with
    | function i _ _ hb =>
      cases Term.hasTree_of_erase_eq hb with
      | ifThenElse ha hb hc =>
        cases hargs with
        | cons hr hnil => cases hnil; exact ⟨_, _, _, _, ⟨i, rfl⟩, ha, hb, hc, hr⟩

theorem binding_of_erase {ret x : Name} {inner after v : Tree} {m : Term κ}
    (h : m.erase = .call (.function () none [ret, x] inner) [after, v]) :
    ∃ i b a u, m = .call (.function i none [ret, x] b) [a, u] ∧ b.erase = inner ∧
      a.erase = after ∧ u.erase = v := by
  cases Term.hasTree_of_erase_eq h with
  | call hf hargs =>
    cases Term.hasTree_of_erase_eq hf with
    | function i _ _ hb =>
      cases hargs with
      | cons ha hargs =>
        cases hargs with
        | cons hv hnil => cases hnil; exact ⟨i, _, _, _, rfl, hb, ha, hv⟩

/-- Every tree can be given marks. -/
def Markable (κ : Type) : Prop := ∀ t : Tree, ∃ m : Term κ, m.erase = t

theorem markable_unit : Markable Unit := fun t => ⟨t, t.erase_tree⟩

theorem markable_nat : Markable Nat := fun t =>
  let ⟨c, _, _, h, _⟩ := t.label_spec 0
  ⟨c, h⟩

mutual

/-- **Everything that the transform gives is related to what it was made of.** -/
theorem passes_of_cps (hκ : Markable κ) (t : Term ι) {k : Cont} {K : Receiver κ} (hk : Receives k K)
    {s s' : Symbols} {m : Term κ} (h : Yields (cps t.erase k) s m.erase s') : Passes t K m := by
  match t with
  | .int n =>
    obtain ⟨u, hu, hK⟩ := hk _ _ _ _ h
    cases Term.hasTree_of_erase_eq hu
    exact hK
  | .str n =>
    obtain ⟨u, hu, hK⟩ := hk _ _ _ _ h
    cases Term.hasTree_of_erase_eq hu
    exact hK
  | .bool n =>
    obtain ⟨u, hu, hK⟩ := hk _ _ _ _ h
    cases Term.hasTree_of_erase_eq hu
    exact hK
  | .var n =>
    obtain ⟨u, hu, hK⟩ := hk _ _ _ _ h
    cases Term.hasTree_of_erase_eq hu
    exact hK
  | .negate t =>
    refine passes_of_cps hκ t (fun v s m s' h => ?_) h
    obtain ⟨u, hu, hK⟩ := hk _ _ _ _ h
    cases Term.hasTree_of_erase_eq hu with
    | negate ha => exact ⟨_, ha, hK⟩
  | .binary op left right =>
    refine passes_of_cps hκ left (fun l s m s' h => ?_) h
    have hright : Passes right
        (fun r m => ∃ a : {a : Term κ // a.erase = l}, K (.binary op a.1 r) m) m := by
      refine passes_of_cps hκ right (fun r s m s' h => ?_) h
      obtain ⟨u, hu, hK⟩ := hk _ _ _ _ h
      cases Term.hasTree_of_erase_eq hu with
      | binary _ ha hb => exact ⟨_, hb, ⟨_, ha⟩, hK⟩
    obtain ⟨⟨a, ha⟩, hright⟩ := Passes.exists right hright
    exact ⟨a, ha, hright⟩
  | .assign (.var x) t =>
    refine passes_of_cps hκ t (fun v s m s' h => ?_) h
    obtain ⟨u, hu, hK⟩ := hk _ _ _ _ h
    cases Term.hasTree_of_erase_eq hu with
    | assign ha hb =>
      cases Term.hasTree_of_erase_eq ha
      exact ⟨_, hb, hK⟩
  | .declare bindings body =>
    have hbody (k : Cont) (K : Receiver κ) (hk : Receives k K) (s : Symbols) (m : Term κ)
        (s' : Symbols) (h : Yields (cps body.erase k) s m.erase s') : Passes body K m :=
      passes_of_cps hκ body hk h
    exact passesBindings_of_cps hκ bindings hbody hk h
  | .function _ name? params body =>
    obtain ⟨ret, s₁, hret, h⟩ := yields_bind_iff.mp h
    obtain ⟨rfl, -⟩ := yields_fresh_iff.mp hret
    obtain ⟨body₀, s₂, hb, h⟩ := yields_bind_iff.mp h
    obtain ⟨u, hu, hK⟩ := hk _ _ _ _ h
    cases Term.hasTree_of_erase_eq hu with
    | function i _ _ ha =>
      subst ha
      exact ⟨i, _, _, passes_of_cps hκ body (receives_jump _) hb, hK⟩
  | .conditional test consequent none =>
    refine passes_of_cps hκ test (fun v s m s' h => ?_) h
    obtain ⟨join, s₁, hjoin, h⟩ := yields_bind_iff.mp h
    obtain ⟨rfl, -⟩ := yields_fresh_iff.mp hjoin
    obtain ⟨rest, s₂, hrest, h⟩ := yields_bind_iff.mp h
    obtain ⟨c₀, s₃, hc, h⟩ := yields_bind_iff.mp h
    obtain ⟨a₀, s₄, ha, h⟩ := yields_bind_iff.mp h
    obtain ⟨hm, -⟩ := yields_pure_iff.mp h
    obtain ⟨v', c, a, r, hbr, hv, rfl, rfl, rfl⟩ := branches_of_erase hm
    obtain ⟨u, hu, rfl⟩ := receives_jump _ _ _ _ _ ha
    cases Term.hasTree_of_erase_eq hu
    exact ⟨v', hv, _, r, c, reified_of_reify hk hrest,
      passes_of_cps hκ consequent (receives_jump _) hc, hbr⟩
  | .conditional test consequent (some alternative) =>
    refine passes_of_cps hκ test (fun v s m s' h => ?_) h
    obtain ⟨join, s₁, hjoin, h⟩ := yields_bind_iff.mp h
    obtain ⟨rfl, -⟩ := yields_fresh_iff.mp hjoin
    obtain ⟨rest, s₂, hrest, h⟩ := yields_bind_iff.mp h
    obtain ⟨c₀, s₃, hc, h⟩ := yields_bind_iff.mp h
    obtain ⟨a₀, s₄, ha, h⟩ := yields_bind_iff.mp h
    obtain ⟨hm, -⟩ := yields_pure_iff.mp h
    obtain ⟨v', c, a, r, hbr, hv, rfl, rfl, rfl⟩ := branches_of_erase hm
    exact ⟨v', hv, _, r, c, a, reified_of_reify hk hrest,
      passes_of_cps hκ consequent (receives_jump _) hc,
      passes_of_cps hκ alternative (receives_jump _) ha, hbr⟩
  | .seq items => exact passesSequence_of_cps hκ items hk h
  | .call callee args =>
    refine passes_of_cps hκ callee (fun f s m s' h => ?_) h
    obtain ⟨ret, s₁, hret, h⟩ := yields_bind_iff.mp h
    have hargs : PassesAll args (fun vs m => ∃ f' : {f' : Term κ // f'.erase = f},
        ∃ r, Reified K r ∧ m = .call f'.1 (r :: vs)) m := by
      refine PassesAll.mono args ?_ (passesAll_of_cps hκ args h)
      rintro vs m ⟨f', done, hf, hdone, rfl⟩
      cases hdone with
      | cons hr hnil =>
        cases hnil
        subst hr
        exact ⟨⟨f', hf⟩, _, reified_of_reify hk hret, rfl⟩
    obtain ⟨⟨f', hf⟩, hargs⟩ := PassesAll.exists args hargs
    exact ⟨f', hf, hargs⟩
termination_by structural t

theorem passesSequence_of_cps (hκ : Markable κ) (ts : List (Term ι)) {k : Cont} {K : Receiver κ}
    (hk : Receives k K) {s s' : Symbols} {m : Term κ}
    (h : Yields (cpsSequence (Term.eraseAll ts) k) s m.erase s') : PassesSequence ts K m := by
  match ts with
  | [] =>
    obtain ⟨u, hu, hK⟩ := hk _ _ _ _ h
    cases Term.hasTree_of_erase_eq hu
    exact hK
  | [t] => exact passes_of_cps hκ t hk h
  | t :: u :: ts =>
    simp only [Term.eraseAll, cpsSequence] at h
    by_cases hp : t.erase.isPure
    · rw [if_pos hp] at h
      rw [PassesSequence, if_pos hp]
      exact passesSequence_of_cps hκ (u :: ts) hk h
    · rw [if_neg hp] at h
      rw [PassesSequence, if_neg hp]
      refine passes_of_cps hκ t (fun v s m s' h => ?_) h
      obtain ⟨rest₀, s₁, hrest, h⟩ := yields_bind_iff.mp h
      obtain ⟨hm, -⟩ := yields_pure_iff.mp h
      by_cases hv : v.isPure
      · -- the value is dropped, so that any term may stand for it
        rw [if_pos hv] at hm
        subst hm
        obtain ⟨w, rfl⟩ := hκ v
        exact ⟨w, rfl, m, passesSequence_of_cps hκ (u :: ts) hk hrest, by rw [if_pos hv]⟩
      · rw [if_neg hv] at hm
        cases Term.hasTree_of_erase_eq hm with
        | seq has =>
          cases has with
          | cons hw has =>
            cases has with
            | cons hr hnil =>
              cases hnil
              subst hr
              exact ⟨_, hw, _, passesSequence_of_cps hκ (u :: ts) hk hrest, by rw [hw, if_neg hv]⟩
termination_by structural ts

theorem passesAll_of_cps (hκ : Markable κ) (ts : List (Term ι)) {callee : Tree} {done : List Tree}
    {s s' : Symbols} {m : Term κ}
    (h : Yields (cpsArguments (Term.eraseAll ts) callee done) s m.erase s') :
    PassesAll ts (fun vs m => ∃ f ds, f.erase = callee ∧ Term.HaveTrees ds done ∧
      m = .call f (ds ++ vs)) m := by
  match ts with
  | [] =>
    obtain ⟨hm, -⟩ := yields_pure_iff.mp h
    cases Term.hasTree_of_erase_eq hm with
    | call hf hds => exact ⟨_, _, hf, hds, by rw [List.append_nil]⟩
  | t :: ts =>
    refine passes_of_cps hκ t (fun v s m s' h => ?_) h
    have hrest : PassesAll ts (fun vs m => ∃ a : {a : Term κ // a.erase = v},
        ∃ f ds, f.erase = callee ∧ Term.HaveTrees ds done ∧ m = .call f (ds ++ a.1 :: vs)) m := by
      refine PassesAll.mono ts ?_ (passesAll_of_cps hκ ts h)
      rintro vs m ⟨f, ds, hf, hds, rfl⟩
      obtain ⟨ds, a, rfl, hds, ha⟩ := hds.of_append_singleton
      exact ⟨⟨a, ha⟩, f, ds, hf, hds, by rw [← List.append_cons]⟩
    obtain ⟨⟨a, ha⟩, hrest⟩ := PassesAll.exists ts hrest
    exact ⟨a, ha, hrest⟩
termination_by structural ts

theorem passesBindings_of_cps (hκ : Markable κ) (bs : List (Binding (Term ι)))
    {body₀ : Cont → Transform Tree} {body : Receiver κ → Term κ → Prop}
    (hbody : ∀ k K, Receives k K → ∀ s (m : Term κ) s', Yields (body₀ k) s m.erase s' → body K m)
    {k : Cont} {K : Receiver κ} (hk : Receives k K) {s s' : Symbols} {m : Term κ}
    (h : Yields (cpsBindings (Term.eraseBindings bs) body₀ k) s m.erase s') :
    PassesBindings bs body K m := by
  match bs with
  | [] => exact hbody k K hk s m s' h
  | ⟨x, none⟩ :: bs =>
    obtain ⟨ret, s₁, hret, h⟩ := yields_bind_iff.mp h
    obtain ⟨rfl, -⟩ := yields_fresh_iff.mp hret
    obtain ⟨inner₀, s₂, hinner, h⟩ := yields_bind_iff.mp h
    obtain ⟨after₀, s₃, hafter, h⟩ := yields_bind_iff.mp h
    obtain ⟨hm, -⟩ := yields_pure_iff.mp h
    obtain ⟨i, inner, after, v, rfl, rfl, rfl, hv⟩ := binding_of_erase hm
    cases Term.hasTree_of_erase_eq hv
    exact ⟨i, _, inner, after, passesBindings_of_cps hκ bs hbody (receives_jump _) hinner,
      reified_of_reify hk hafter, rfl⟩
  | ⟨x, some t⟩ :: bs =>
    obtain ⟨ret, s₁, hret, h⟩ := yields_bind_iff.mp h
    obtain ⟨rfl, -⟩ := yields_fresh_iff.mp hret
    obtain ⟨inner₀, s₂, hinner, h⟩ := yields_bind_iff.mp h
    obtain ⟨after₀, s₃, hafter, h⟩ := yields_bind_iff.mp h
    refine passes_of_cps hκ t (fun v s m s' h => ?_) h
    obtain ⟨hm, -⟩ := yields_pure_iff.mp h
    obtain ⟨i, inner, after, v', rfl, rfl, rfl, hv⟩ := binding_of_erase hm
    exact ⟨v', hv, i, _, inner, after,
      passesBindings_of_cps hκ bs hbody (receives_jump _) hinner, reified_of_reify hk hafter, rfl⟩
termination_by structural bs

end

/-- The transform of a tree as a whole is related to it, and the value of the tree is its value. -/
theorem passes_of_transformWith (hκ : Markable κ) {t : Term ι} {m : Term κ} {s s' : Symbols}
    (h : t.erase.transformWith s id = (.ok m.erase, s')) :
    t.erase.check = .ok () ∧ Passes t (fun v m => m = v) m := by
  unfold Tree.transformWith Transform.transform at h
  cases hc : t.erase.check with
  | error fault =>
    rw [hc] at h
    exact absurd h not_yields_throw
  | ok u =>
    rw [hc] at h
    refine ⟨rfl, passes_of_cps hκ t (fun v s m s' h => ?_) h⟩
    obtain ⟨hm, -⟩ := yields_pure_iff.mp h
    exact ⟨m, hm, rfl⟩

end LetLambda
