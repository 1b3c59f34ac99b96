import LetLambda.Proofs.Passing
import LetLambda.Proofs.Renaming

/-!
# The transform captures nothing

What a continuation of the transform has in hand, operands that were transformed before and the rest
of the program, is put far from where it was written: into a function that a call is given, in front
of the arms of a conditional, around a `let`. That it never ends up under a binder of the tree that
it did not stand under, and never leaves one that it needs, is seen by renaming: trees that differ
in the names that they bind have transforms that differ in the names that they bind
(`cps_follows`). Had a variable been captured, a renaming of its captor would set it free.

Everything is done for trees whose unbound names match in a given way, so that the free variables of
a transform come out of the same induction.
-/

namespace LetLambda

open Symbols (Generated nameOf generated_nameOf)

/-! ### Generated names under binders -/

namespace Matching

/-- Generated names match nothing but themselves. -/
def Rigid (R : Matching) : Prop := ∀ a b, Generated a ∨ Generated b → R a b → a = b

variable {R : Matching} {x y g : Name}

theorem rigid_eq : Rigid Eq := fun _ _ _ => id

theorem rigid_among (S : Name → Prop) : (among S).Rigid := fun _ _ _ h => h.1

theorem bind_self (R : Matching) (x y : Name) : R.bind x y x y := .inl ⟨rfl, rfl⟩

theorem Rigid.bind_ordinary (h : R.Rigid) (hx : ¬ Generated x) (hy : ¬ Generated y) :
    (R.bind x y).Rigid := by
  rintro a b hg (⟨rfl, rfl⟩ | ⟨-, -, hab⟩)
  · exact absurd hg (not_or.mpr ⟨hx, hy⟩)
  · exact h a b hg hab

theorem Rigid.bindAll_ordinary (h : R.Rigid) {xs ys : List Name} (hx : ∀ x ∈ xs, ¬ Generated x)
    (hy : ∀ y ∈ ys, ¬ Generated y) : (R.bindAll xs ys).Rigid := by
  induction xs generalizing R ys with
  | nil => exact h
  | cons x xs ih =>
    cases ys with
    | nil => exact h
    | cons y ys =>
      obtain ⟨hx, hxs⟩ := List.forall_mem_cons.mp hx
      obtain ⟨hy, hys⟩ := List.forall_mem_cons.mp hy
      exact ih (h.bind_ordinary hx hy) hxs hys

theorem Rigid.bind_generated (h : R.Rigid) (g : Name) : (R.bind g g).Rigid := by
  rintro a b hg (⟨rfl, rfl⟩ | ⟨-, -, hab⟩)
  · rfl
  · exact h a b hg hab

/-- A binder of a generated name takes away nothing that matched. -/
theorem Rigid.le_bind (h : R.Rigid) (hg : Generated g) : R.Le (R.bind g g) := by
  intro a b hab
  by_cases ha : a = g
  · exact .inl ⟨ha, (h a b (.inl (ha ▸ hg)) hab).symm.trans ha⟩
  · refine .inr ⟨ha, fun hb => ha ?_, hab⟩
    exact (h a b (.inr (hb ▸ hg)) hab).trans hb

/-- A name that matches itself goes on to do so under binders of other names. -/
theorem bindAll_of_not_mem {xs ys : List Name} (h : R g g) (hx : g ∉ xs) (hy : g ∉ ys) :
    R.bindAll xs ys g g := by
  induction xs generalizing R ys with
  | nil => exact h
  | cons x xs ih =>
    cases ys with
    | nil => exact h
    | cons y ys =>
      rw [List.mem_cons, not_or] at hx hy
      exact ih (.inr ⟨hx.1, hy.1, h⟩) hx.2 hy.2

end Matching

namespace Transform

/-! ### Transforms that follow a renaming -/

/-- Whatever the first transform gives, the second gives with the same names, up to the names that
are bound. -/
def Follows (R : Matching) (x x' : Transform Tree) : Prop :=
  ∀ s m s₁, Yields x s m s₁ → ∃ m', Yields x' s m' s₁ ∧ Alpha R m m'

/-- Continuations that follow a renaming wherever they are used, under binders of generated names
too. -/
def FollowsAt (R : Matching) (k k' : Cont) : Prop :=
  ∀ S : Matching, R.Le S → S.Rigid → ∀ v v', Alpha S v v' → Follows S (k v) (k' v')

variable {R S : Matching} {x x' : Transform Tree} {k k' : Cont}

theorem follows_pure {m m' : Tree} (h : Alpha R m m') : Follows R (pure m) (pure m') := by
  intro s m₁ s₁ hm
  obtain ⟨rfl, rfl⟩ := yields_pure_iff.mp hm
  exact ⟨m', yields_pure_iff.mpr ⟨rfl, rfl⟩, h⟩

theorem Follows.bind {f f' : Tree → Transform Tree} (hx : Follows S x x')
    (hf : ∀ m m', Alpha S m m' → Follows R (f m) (f' m')) : Follows R (x >>= f) (x' >>= f') := by
  intro s m s₁ hm
  obtain ⟨a, s₂, ha, hm⟩ := yields_bind_iff.mp hm
  obtain ⟨a', ha', haa'⟩ := hx s a s₂ ha
  obtain ⟨m', hm', hmm'⟩ := hf a a' haa' s₂ m s₁ hm
  exact ⟨m', yields_bind_iff.mpr ⟨a', s₂, ha', hm'⟩, hmm'⟩

theorem follows_fresh {stem : String} {f f' : Name → Transform Tree}
    (hf : ∀ n, Follows R (f (nameOf stem n)) (f' (nameOf stem n))) :
    Follows R (fresh stem >>= f) (fresh stem >>= f') := by
  intro s m s₁ hm
  obtain ⟨x, s₂, hx, hm⟩ := yields_bind_iff.mp hm
  obtain ⟨rfl, rfl⟩ := yields_fresh_iff.mp hx
  obtain ⟨m', hm', hmm'⟩ := hf _ _ m s₁ hm
  exact ⟨m', yields_bind_iff.mpr ⟨_, _, hx, hm'⟩, hmm'⟩

theorem FollowsAt.mono (hk : FollowsAt R k k') (h : R.Le S) : FollowsAt S k k' :=
  fun T hT => hk T (h.trans hT)

theorem followsAt_jump {target : Name} (h : R target target) :
    FollowsAt R (jump target) (jump target) :=
  fun _ hS _ _ _ hv => follows_pure (.call (.var (hS _ _ h)) (.cons hv .nil))

theorem follows_reify (hR : R.Rigid) (hk : FollowsAt R k k') : Follows R (reify k) (reify k') := by
  refine follows_fresh fun n => ?_
  have hle := hR.le_bind (generated_nameOf "R" n)
  refine (hk _ hle (hR.bind_generated _) _ _ (.var (R.bind_self _ _))).bind fun body body' hb => ?_
  exact follows_pure (.function rfl rfl hb)

/-- The arms of a conditional, which end by handing their value to the function that is bound around
them. -/
theorem follows_join (hR : R.Rigid) (hk : FollowsAt R k k') {v v' : Tree} (hv : Alpha R v v')
    (c c' a a' : Cont → Transform Tree)
    (hc : ∀ S j, R.Le S → S.Rigid → FollowsAt S j j → Follows S (c j) (c' j))
    (ha : ∀ S j, R.Le S → S.Rigid → FollowsAt S j j → Follows S (a j) (a' j)) :
    Follows R
      (do
        let join ← fresh "I"
        let rest ← reify k
        let consequent ← c (jump join)
        let alternative ← a (jump join)
        return branches join v consequent alternative rest)
      (do
        let join ← fresh "I"
        let rest ← reify k'
        let consequent ← c' (jump join)
        let alternative ← a' (jump join)
        return branches join v' consequent alternative rest) := by
  refine follows_fresh fun n => ?_
  have hle := hR.le_bind (generated_nameOf "I" n)
  have hrigid := hR.bind_generated (nameOf "I" n)
  have hjump := followsAt_jump (R.bind_self (nameOf "I" n) (nameOf "I" n))
  refine (follows_reify hR hk).bind fun rest rest' hrest => ?_
  refine (hc _ _ hle hrigid hjump).bind fun consequent consequent' hc => ?_
  refine (ha _ _ hle hrigid hjump).bind fun alternative alternative' ha => ?_
  exact follows_pure
    (.call (.function rfl rfl (.ifThenElse (hv.mono hle) hc ha)) (.cons hrest .nil))

/-- Under the binders of a tree, the function to return to is still what it was: it is bound outside
of them, and none of them has its name. -/
theorem under_binders (hR : R.Rigid) {xs ys : List Name} (hx : ∀ x ∈ xs, ¬ Generated x)
    (hy : ∀ y ∈ ys, ¬ Generated y) {ret : Name} (hret : Generated ret) :
    (R.bindAll xs ys).Le ((R.bind ret ret).bindAll xs ys) ∧
      ((R.bind ret ret).bindAll xs ys).Rigid ∧
      FollowsAt ((R.bind ret ret).bindAll xs ys) (jump ret) (jump ret) := by
  refine ⟨(hR.le_bind hret).bindAll xs ys, (hR.bind_generated ret).bindAll_ordinary hx hy, ?_⟩
  refine followsAt_jump (Matching.bindAll_of_not_mem (R.bind_self ret ret) ?_ ?_)
  · exact fun h => hx ret h hret
  · exact fun h => hy ret h hret

/-- The function that a binding becomes, and what `f` makes of it and of what comes after it. -/
theorem follows_binding (hR : R.Rigid) {x y : Name} (hx : ¬ Generated x) (hy : ¬ Generated y)
    (hk : FollowsAt R k k') (inner inner' : Cont → Transform Tree)
    (hinner : ∀ S j, (R.bind x y).Le S → S.Rigid → FollowsAt S j j →
      Follows S (inner j) (inner' j))
    (f f' : Tree → Tree → Transform Tree)
    (hf : ∀ g g' a a', Alpha R g g' → Alpha R a a' → Follows R (f g a) (f' g' a')) :
    Follows R
      (do
        let ret ← fresh "K"
        let body ← inner (jump ret)
        let after ← reify k
        f (.function () none [ret, x] body) after)
      (do
        let ret ← fresh "K"
        let body ← inner' (jump ret)
        let after ← reify k'
        f' (.function () none [ret, y] body) after) := by
  refine follows_fresh fun n => ?_
  obtain ⟨hle, hrigid, hjump⟩ := under_binders hR (List.forall_mem_singleton.mpr hx)
    (List.forall_mem_singleton.mpr hy) (generated_nameOf "K" n)
  refine (hinner _ _ hle hrigid hjump).bind fun body body' hbody => ?_
  refine (follows_reify hR hk).bind fun after after' hafter => ?_
  exact hf _ _ _ _ (.function rfl rfl hbody) hafter

/-! ### The transform -/

/-- The names of a node are ordinary. -/
abbrev OwnOrdinary (s : Tree) : Prop := ∀ x ∈ s.ownNames, ¬ Generated x

mutual

/-- **The transform follows renamings.** Trees that differ in the names that they bind have
transforms that differ in the names that they bind. -/
theorem cps_follows (t : Tree) {R : Matching} {t' : Tree} (h : Alpha R t t') (hR : R.Rigid)
    (ht : Ordinary t) (ht' : Ordinary t') {k k' : Cont} (hk : FollowsAt R k k') :
    Follows R (cps t k) (cps t' k') := by
  cases t with
  | int n =>
    cases h
    exact hk R (.refl R) hR _ _ (.int n)
  | str s =>
    cases h
    exact hk R (.refl R) hR _ _ (.str s)
  | bool b =>
    cases h
    exact hk R (.refl R) hR _ _ (.bool b)
  | var x =>
    cases h with
    | var h => exact hk R (.refl R) hR _ _ (.var h)
  | negate t =>
    cases h with
    | negate h =>
      refine cps_follows t h hR ht.negate ht'.negate fun S hS hrigid v v' hv => ?_
      exact hk S hS hrigid _ _ (.negate hv)
  | binary op left right =>
    cases h with
    | binary _ hl hr =>
      -- The transform of the right operand has the left one in hand, which may come under binders
      -- of generated names there: hence `S` and then `T`.
      refine cps_follows left hl hR ht.binary.1 ht'.binary.1 fun S hS hrigid l l' hv => ?_
      refine cps_follows right (hr.mono hS) hrigid ht.binary.2 ht'.binary.2 ?_
      intro T hT hrigid' r r' hw
      exact hk T (hS.trans hT) hrigid' _ _ (.binary op (hv.mono hT) hw)
  | assign target t =>
    cases h with
    | assign hs h =>
      cases target with
      | var x =>
        cases hs with
        | var hx =>
          refine cps_follows t h hR ht.assign ht'.assign fun S hS hrigid v v' hv => ?_
          exact hk S hS hrigid _ _ (.assign (.var (hS _ _ hx)) hv)
      | _ => exact fun _ _ _ hm => absurd hm not_yields_throw
  | declare bindings body =>
    cases h with
    | declare h =>
      obtain ⟨hbs, hbody⟩ := ThroughoutBindings.of_declare ht ht.self
      obtain ⟨hbs', hbody'⟩ := ThroughoutBindings.of_declare ht' ht'.self
      exact cpsBindings_follows bindings h hR hbs hbs'
        (fun _ h hR _ _ hk => cps_follows body h hR hbody hbody' hk) hk
  | function i name? params body =>
    cases h with
    | @function _ _ name?' _ params' _ body' hname hparams h =>
      obtain ⟨hn, hp⟩ := List.forall_mem_append.mp ht.self
      obtain ⟨hn', hp'⟩ := List.forall_mem_append.mp ht'.self
      refine follows_fresh fun n => ?_
      -- The function to return to is bound between the own name of the function and its parameters.
      obtain ⟨hle, hrigid, hjump⟩ :=
        under_binders (hR.bindAll_ordinary hn hn') hp hp' (generated_nameOf "K" n)
      refine (cps_follows body (h.mono hle) hrigid ht.function ht'.function hjump).bind
        fun b b' hb => ?_
      exact hk R (.refl R) hR _ _ (.function hname (congrArg (· + 1) hparams) hb)
  | conditional test consequent alternative? =>
    obtain ⟨htest, hcons, halt⟩ := ht.conditional
    cases alternative? with
    | none =>
      cases h with
      | ifThen hs hc =>
        obtain ⟨htest', hcons', -⟩ := ht'.conditional
        refine cps_follows test hs hR htest htest' fun S hS hrigid v v' hv => ?_
        refine follows_join hrigid (hk.mono hS) hv (cps consequent) (cps _) (· .absent) (· .absent)
          (fun T j hle hrigid hj => ?_) (fun T j hle hrigid hj => ?_)
        · exact cps_follows consequent (hc.mono (hS.trans hle)) hrigid hcons hcons' hj
        · exact hj T (.refl T) hrigid _ _ (.bool false)
    | some alternative =>
      cases h with
      | ifThenElse hs hc ha =>
        obtain ⟨htest', hcons', halt'⟩ := ht'.conditional
        refine cps_follows test hs hR htest htest' fun S hS hrigid v v' hv => ?_
        refine follows_join hrigid (hk.mono hS) hv (cps consequent) (cps _) (cps alternative)
          (cps _) (fun T j hle hrigid hj => ?_) (fun T j hle hrigid hj => ?_)
        · exact cps_follows consequent (hc.mono (hS.trans hle)) hrigid hcons hcons' hj
        · exact cps_follows alternative (ha.mono (hS.trans hle)) hrigid (halt _ rfl)
            (halt' _ rfl) hj
  | seq items =>
    cases h with
    | seq h => exact cpsSequence_follows items h hR ht.seq ht'.seq hk
  | call callee args =>
    cases h with
    | call hf hargs =>
      have hts := List.forall_mem_cons.mp ht.call
      have hts' := List.forall_mem_cons.mp ht'.call
      refine cps_follows callee hf hR hts.1 hts'.1 fun S hS hrigid f f' hf => ?_
      refine (follows_reify hrigid (hk.mono hS)).bind fun ret ret' hret => ?_
      exact cpsArguments_follows args (hargs.mono hS) hrigid hts.2 hts'.2 hf (.cons hret .nil)
termination_by structural t

theorem cpsSequence_follows (ts : List Tree) {R : Matching} {ts' : List Tree}
    (h : AlphaAll R ts ts') (hR : R.Rigid) (hts : ∀ t ∈ ts, Ordinary t)
    (hts' : ∀ t ∈ ts', Ordinary t) {k k' : Cont} (hk : FollowsAt R k k') :
    Follows R (cpsSequence ts k) (cpsSequence ts' k') := by
  cases ts with
  | nil =>
    cases h
    exact hk R (.refl R) hR _ _ (.bool false)
  | cons t ts =>
    obtain ⟨ht, hts⟩ := List.forall_mem_cons.mp hts
    cases h with
    | @cons _ _ t' _ ts' h h' =>
      obtain ⟨ht', hts'⟩ := List.forall_mem_cons.mp hts'
      cases ts with
      | nil =>
        cases h'
        exact cps_follows t h hR ht ht' hk
      | cons u ts =>
        obtain ⟨u', ts', rfl⟩ : ∃ u' us', ts' = u' :: us' := by
          cases h' with
          | cons => exact ⟨_, _, rfl⟩
        -- A term that is dropped as pure on one side is dropped on the other.
        rw [cpsSequence, cpsSequence, ← h.isPure_eq]
        split
        · exact cpsSequence_follows (u :: ts) h' hR hts hts' hk
        · refine cps_follows t h hR ht ht' fun S hS hrigid v v' hv => ?_
          refine (cpsSequence_follows (u :: ts) (h'.mono hS) hrigid hts hts' (hk.mono hS)).bind
            fun rest rest' hrest => ?_
          rw [← hv.isPure_eq]
          split
          · exact follows_pure hrest
          · exact follows_pure (.seq (.cons hv (.cons hrest .nil)))
termination_by structural ts

theorem cpsArguments_follows (ts : List Tree) {R : Matching} {ts' : List Tree}
    (h : AlphaAll R ts ts') (hR : R.Rigid) (hts : ∀ t ∈ ts, Ordinary t)
    (hts' : ∀ t ∈ ts', Ordinary t) {f f' : Tree} (hf : Alpha R f f') {done done' : List Tree}
    (hdone : AlphaAll R done done') :
    Follows R (cpsArguments ts f done) (cpsArguments ts' f' done') := by
  cases ts with
  | nil =>
    cases h
    exact follows_pure (.call hf hdone)
  | cons t ts =>
    obtain ⟨ht, hts⟩ := List.forall_mem_cons.mp hts
    cases h with
    | cons h h' =>
      obtain ⟨ht', hts'⟩ := List.forall_mem_cons.mp hts'
      refine cps_follows t h hR ht ht' fun S hS hrigid v v' hv => ?_
      exact cpsArguments_follows ts (h'.mono hS) hrigid hts hts' (hf.mono hS)
        ((hdone.mono hS).append_singleton hv)
termination_by structural ts

theorem cpsBindings_follows (bs : List (Binding Tree)) {R : Matching} {bs' : List (Binding Tree)}
    {t t' : Tree} (h : AlphaLet R bs t bs' t') (hR : R.Rigid)
    (hbs : ThroughoutBindings OwnOrdinary bs) (hbs' : ThroughoutBindings OwnOrdinary bs')
    (hbody : ∀ R, Alpha R t t' → R.Rigid → ∀ k k', FollowsAt R k k' →
      Follows R (cps t k) (cps t' k'))
    {k k' : Cont} (hk : FollowsAt R k k') :
    Follows R (cpsBindings bs (fun k => cps t k) k) (cpsBindings bs' (fun k => cps t' k) k') := by
  cases bs with
  | nil =>
    cases h with
    | nil h => exact hbody R h hR k k' hk
  | cons b bs =>
    obtain ⟨x, d?⟩ := b
    have hx : ¬ Generated x := hbs.ordinary _ List.mem_cons_self
    cases d? with
    | none =>
      cases h with
      | none h =>
        refine follows_binding hR hx (hbs'.ordinary _ List.mem_cons_self) hk _ _
          (fun S j hle hrigid hj => ?_)
          (fun g a => pure (.call g [a, .absent])) (fun g a => pure (.call g [a, .absent])) ?_
        · exact cpsBindings_follows bs (h.mono hle) hrigid hbs.tail hbs'.tail hbody hj
        · exact fun g g' a a' hg ha => follows_pure (.call hg (.cons ha (.cons (.bool false) .nil)))
    | some d =>
      cases h with
      | @some _ _ _ _ d' _ _ _ _ hd h =>
        refine follows_binding hR hx (hbs'.ordinary _ List.mem_cons_self) hk _ _
          (fun S j hle hrigid hj => ?_)
          (fun g a => cps d fun v => return .call g [a, v])
          (fun g a => cps d' fun v => return .call g [a, v]) (fun g g' a a' hg ha => ?_)
        · exact cpsBindings_follows bs (h.mono hle) hrigid hbs.tail hbs'.tail hbody hj
        · refine cps_follows d hd hR hbs.head hbs'.head fun S hS hrigid v v' hv => ?_
          exact follows_pure (.call (hg.mono hS) (.cons (ha.mono hS) (.cons hv .nil)))
termination_by structural bs

end

end Transform

/-- The transforms of two trees, started with the same supply of names. -/
theorem transformWith_follows {R : Matching} {t t' m : Tree} {s s' : Symbols} (h : Alpha R t t')
    (hR : R.Rigid) (ht : Ordinary t) (ht' : Ordinary t') (hcheck : t'.check = .ok ())
    (hm : t.transformWith s id = (.ok m, s')) :
    ∃ m', t'.transformWith s id = (.ok m', s') ∧ Alpha R m m' := by
  rw [Tree.transformWith, Transform.transform] at hm
  cases hc : t.check with
  | error fault =>
    rw [hc] at hm
    exact absurd hm Transform.not_yields_throw
  | ok u =>
    rw [hc] at hm
    rw [Tree.transformWith, Transform.transform, hcheck]
    refine Transform.cps_follows t h hR ht ht' (fun S hS hrigid v v' hv => ?_) s m s' hm
    exact Transform.follows_pure hv

/-- **The transform is hygienic.** Whatever names have been given out before, of a tree without
generated names: the free variables of its transform are free in the tree, so none of them is a
generated name, each of which is bound around every place where it is used; and renaming what the
tree binds renames what the transform binds, so nothing that the transform moves is captured by a
binder of the tree or taken away from one. -/
theorem transformWith_hygienic {t m : Tree} {s s' : Symbols} (ht : Ordinary t)
    (h : t.transformWith s id = (.ok m, s')) :
    (∀ x ∈ m.free, x ∈ t.free) ∧ (∀ x ∈ m.free, ¬ Generated x) ∧
      ∀ t', Ordinary t' → t'.check = .ok () → AlphaEq t t' →
        ∃ m', t'.transformWith s id = (.ok m', s') ∧ AlphaEq m m' := by
  have hcheck : t.check = .ok () := by
    rw [← t.erase_tree, ← m.erase_tree] at h
    rw [← t.erase_tree]
    exact (passes_of_transformWith markable_unit h).1
  have hfree : ∀ x ∈ m.free, x ∈ t.free := by
    -- The tree follows itself when only its free variables match, so its transform does too.
    have hself : Alpha (Matching.among (· ∈ t.free)) t t := (alpha_among_iff t).mpr fun _ => id
    obtain ⟨m', hm', hmm'⟩ :=
      transformWith_follows hself (Matching.rigid_among _) ht ht hcheck h
    rw [h] at hm'
    cases hm'
    exact (alpha_among_iff m).mp hmm'
  refine ⟨hfree, fun x hx => ht.not_generated (hfree x hx), fun t' ht' hcheck' htt' => ?_⟩
  exact transformWith_follows htt' Matching.rigid_eq ht ht' hcheck' h

/-- The program `x + let (y = 1) f(y)`, in which `y` may be called `x` as well. -/
def shadowing (y : Name) : Tree :=
  .binary "+" (.var "x") (.declare [⟨y, some (.int 1)⟩] (.call (.var "f") [.var y]))

/-- Its transform, in which the operand `x` stands in a function outside the scope of `y`. -/
def shadowingPassed (y : Name) : Tree :=
  .call
    (.function () none [nameOf "K" 5, y]
      (.call (.var "f")
        [.function () none [nameOf "R" 6] (.call (.var (nameOf "K" 5)) [.var (nameOf "R" 6)]),
          .var y]))
    [.function () none [nameOf "R" 7] (.binary "+" (.var "x") (.var (nameOf "R" 7))), .int 1]

theorem transformWith_hygienic_shadowing :
    (shadowing "x").transformWith ⟨4⟩ id = (.ok (shadowingPassed "x"), ⟨7⟩) ∧
      (∀ x ∈ (shadowingPassed "x").free, x ∈ (shadowing "x").free) ∧
      ∃ m, (shadowing "z").transformWith ⟨4⟩ id = (.ok m, ⟨7⟩) ∧
        AlphaEq (shadowingPassed "x") m := by
  have h : (shadowing "x").transformWith ⟨4⟩ id = (.ok (shadowingPassed "x"), ⟨7⟩) := rfl
  have hx : Ordinary (shadowing "x") := by decide +kernel
  have hz : Ordinary (shadowing "z") := by decide +kernel
  have hrenamed : AlphaEq (shadowing "x") (shadowing "z") :=
    .binary _ (.var rfl) (.declare (.some (.int 1)
      (.nil (.call (.var (.inr ⟨by decide, by decide, rfl⟩))
        (.cons (.var (.inl ⟨rfl, rfl⟩)) .nil)))))
  obtain ⟨hfree, -, hrenaming⟩ := transformWith_hygienic hx h
  exact ⟨h, hfree, hrenaming _ hz rfl hrenamed⟩

end LetLambda
