import LetLambda.Proofs.Residue

/-!
# Where a transform hands its value on

While terms are evaluated from a moment at which the runs are `Poised`, the second run comes to the
point at which their transform hands its values on. There the two runs have `Reached` the following:
they agree but for the updates that the second run owes, and what is left of the terms waits for
its values. All that is said of the terms is their `Footprint`.
-/

namespace LetLambda

open Symbols (Generated)
open Term (marksAll bindersAll)

/-! ### Footprints -/

/-- What can be said of terms without evaluating them. -/
structure Footprint where
  /-- Their literals. -/
  marks : List Nat
  /-- Their parts outside the bodies of literals. -/
  surface : List Tree
  /-- Whether they are pure. -/
  isPure : Bool
  /-- What is pure does not assign. -/
  calm : isPure = true → ∀ s ∈ surface, s.isAssignment = false

namespace Footprint

/-- The footprint of terms. -/
def of (ts : List Code) : Footprint where
  marks := marksAll ts
  surface := ts.flatMap fun t => t.erase.surface
  isPure := ts.all fun t => t.erase.isPure
  calm h s hs := by
    obtain ⟨t, ht, hs⟩ := List.mem_flatMap.mp hs
    exact Term.not_isAssignment_of_isPure t.erase (List.all_eq_true.mp h t ht) s hs

/-- The variables that are read. -/
def reads (F : Footprint) : List Name := F.surface.filterMap Term.asVariable?

/-- Whether there is an assignment. -/
def assigns (F : Footprint) : Bool := F.surface.any Term.isAssignment

/-- Whether no conditional and no `let` reads a name of `names`. -/
def steady (names : List Name) (F : Footprint) : Bool :=
  F.surface.all fun s => !s.isBlock || s.blind names

/-- The terms cannot tell whether the updates `debt` of names of `names` have been made. -/
def Unaware (names : List Name) (debt : List Update) (F : Footprint) : Prop :=
  debt = [] ∨ (F.isPure = true ∧ ∀ x ∈ F.reads, x ∉ names)

/-- Nothing happens with `F` that cannot happen with `G`. -/
structure Part (F G : Footprint) : Prop where
  marks : F.marks ⊆ G.marks
  isPure : G.isPure = true → F.isPure = true
  reads : F.reads ⊆ G.reads

/-- The terms of `F` are parts of those of `G`. -/
structure Le (F G : Footprint) : Prop where
  marks : F.marks ⊆ G.marks
  isPure : G.isPure = true → F.isPure = true
  surface : F.surface ⊆ G.surface

variable {F G : Footprint} {t u : Code} {ts us : List Code} {x : Name}

theorem assigns_of_isPure (h : F.isPure = true) : F.assigns = false :=
  List.any_eq_false.mpr fun s hs => by rw [F.calm h s hs]; nofun

theorem Le.reads (h : F.Le G) : F.reads ⊆ G.reads := by
  intro x hx
  obtain ⟨s, hs, hx⟩ := List.mem_filterMap.mp hx
  exact List.mem_filterMap.mpr ⟨s, h.surface hs, hx⟩

theorem Le.assigns (h : F.Le G) (hG : G.assigns = false) : F.assigns = false :=
  List.any_eq_false.mpr fun s hs => List.any_eq_false.mp hG s (h.surface hs)

theorem Le.steady {names : List Name} (h : F.Le G) (hG : G.steady names = true) :
    F.steady names = true :=
  List.all_eq_true.mpr fun s hs => List.all_eq_true.mp hG s (h.surface hs)

theorem Unaware.part {names : List Name} {debt : List Update} (h : G.Unaware names debt)
    (hFG : F.Part G) : F.Unaware names debt :=
  h.imp_right fun ⟨hp, hr⟩ => ⟨hFG.isPure hp, fun x hx => hr x (hFG.reads hx)⟩

theorem mem_reads_of : x ∈ (of ts).reads ↔ ∃ t ∈ ts, x ∈ t.erase.reads := by
  simp only [reads, of, Term.reads, List.mem_filterMap, List.mem_flatMap]
  constructor
  · rintro ⟨s, ⟨t, ht, hs⟩, hx⟩
    exact ⟨t, ht, s, hs, hx⟩
  · rintro ⟨t, ht, s, hs, hx⟩
    exact ⟨s, ⟨t, ht, hs⟩, hx⟩

theorem reads_subset_of (h : t ∈ ts) : t.erase.reads ⊆ (of ts).reads :=
  fun _ hx => mem_reads_of.mpr ⟨t, h, hx⟩

/-- The footprint of some of the terms. -/
theorem le_of_subset (h : ts ⊆ us) (hm : marksAll ts ⊆ marksAll us) : (of ts).Le (of us) := by
  refine ⟨hm, fun hp => ?_, fun s hs => ?_⟩
  · exact List.all_eq_true.mpr fun t ht => List.all_eq_true.mp hp t (h ht)
  · obtain ⟨t, ht, hs⟩ := List.mem_flatMap.mp hs
    exact List.mem_flatMap.mpr ⟨t, h ht, hs⟩

theorem head_le (t : Code) (ts : List Code) : (of [t]).Le (of (t :: ts)) :=
  le_of_subset (by simp) (by simp [marksAll])

theorem tail_le (t : Code) (ts : List Code) : (of ts).Le (of (t :: ts)) :=
  le_of_subset (by simp) (by simp [marksAll])

/-- The footprint of what is evaluated for a term. -/
theorem part_of (hm : u.marks ⊆ t.marks) (hp : t.erase.isPure = true → u.erase.isPure = true)
    (hr : u.erase.reads ⊆ t.erase.reads) : (of [u]).Part (of [t]) := by
  refine ⟨by simpa [of, marksAll] using hm, by simpa [of] using hp, fun x hx => ?_⟩
  obtain ⟨s, hs, hx⟩ := mem_reads_of.mp hx
  cases List.mem_singleton.mp hs
  exact mem_reads_of.mpr ⟨t, List.mem_singleton_self t, hr hx⟩

/-- The footprint of parts of a term. -/
theorem le_of_parts (hm : marksAll ts ⊆ t.marks)
    (hs : ∀ u ∈ ts, u.erase.surface ⊆ t.erase.surface)
    (hp : t.erase.isPure = true → ∀ u ∈ ts, u.erase.isPure = true) : (of ts).Le (of [t]) := by
  refine ⟨by simpa [of, marksAll] using hm, fun h => ?_, fun s hs' => ?_⟩
  · exact List.all_eq_true.mpr (hp (List.all_eq_true.mp h t (List.mem_singleton_self t)))
  · obtain ⟨u, hu, hs'⟩ := List.mem_flatMap.mp hs'
    exact List.mem_flatMap.mpr ⟨t, List.mem_singleton_self t, hs u hu hs'⟩

/-- Terms that read no name of `names` have no conditional that does. -/
theorem steady_of {names : List Name} (h : ∀ x ∈ (of ts).reads, x ∉ names) :
    (of ts).steady names = true := by
  refine List.all_eq_true.mpr fun s hs => Bool.or_eq_true_iff.mpr (.inr ?_)
  obtain ⟨t, ht, hs⟩ := List.mem_flatMap.mp hs
  refine List.all_eq_true.mpr fun x hx => decide_eq_true (h x ?_)
  exact reads_subset_of ht (Term.reads_subset_of_mem_surface hs hx)

/-- A conditional or a `let` that no update can be told from. -/
theorem unaware_of_block {names : List Name} {debt : List Update} (ht : t.erase.isBlock = true)
    (h : debt = [] ∨ ((of [t]).isPure = true ∧ (of [t]).steady names = true)) :
    (of [t]).Unaware names debt := by
  refine h.imp_right fun ⟨hp, hs⟩ => ⟨hp, fun x hx => ?_⟩
  obtain ⟨u, hu, hx⟩ := mem_reads_of.mp hx
  cases List.mem_singleton.mp hu
  have hblind := List.all_eq_true.mp hs t.erase
    (List.mem_flatMap.mpr ⟨t, List.mem_singleton_self t, Term.self_mem_parts false t.erase⟩)
  rw [ht, Bool.not_true, Bool.false_or] at hblind
  exact of_decide_eq_true (List.all_eq_true.mp hblind x hx)

end Footprint

/-! ### Before and after -/

/-- The second run owes updates: of names that are assigned somewhere, where they are bound, in
frames that correspond to something. -/
def Owed (names : List Name) (P : Bond) (V : Scene) (us : List Update) : Prop :=
  ∀ u ∈ us, u.name ∈ names ∧ (∃ g, P.frames u.frame g) ∧ (V.slot u.frame u.name).isSome = true

/-- What is pending was made by literals of `marks` in frame `i`, or is in new frames. -/
structure Pending.Inside (own : Pending) (i : FrameId) (marks : List Nat) (s s' : Nat) : Prop where
  funs : ∀ p, own.funs p → Ground i marks s s' p
  frames : ∀ f, own.frames f → s ≤ f ∧ f < s'

/-- The runs are about to evaluate terms with the footprint `F` in the frames `i` and `j`. The
second run owes `debt`, and if it owes anything then the terms are pure and no conditional and no
`let` of them can tell. -/
structure Poised (names : List Name) (F : Footprint) (i : FrameId) (w : World) (P : Bond)
    (j : FrameId) (V : Scene) (debt : List Update) : Prop where
  agree : Agree names P V
  env : P.envs i j
  scene : V.updates debt = w.store.scene
  console : P.world.console = w.console
  fresh : ∀ l ∈ F.marks, ∀ q, ¬ P.funs (l, i) q
  owed : Owed names P V debt
  idle : debt = [] ∨ (F.isPure = true ∧ F.steady names = true)

variable (hosts : Hosts)

/-- From `P`, `j` and `V`, the first run has found the values `vs`, and the second one has come to
the point at which the terms `as` wait in frame `k` to give these values. -/
structure Reached (names : List Name) (F : Footprint) (i : FrameId) (P : Bond) (j : FrameId)
    (V : Scene) (debt : List Update) (vs : List Value) (w : World) (Q : Bond) (k : FrameId)
    (W : Scene) (as : List Code) (us : List Update) (own : Pending) : Prop where
  passage : Passage names i F.marks F.isPure P V Q W
  env : Q.envs i k
  follows : P.Follows j Q k
  scene : W.updates (debt ++ us) = w.store.scene
  console : Q.world.console = w.console
  owed : Owed names Q W (debt ++ us)
  quiet : F.assigns = false → us = []
  pure : (∀ a ∈ as, a.erase.isPure = true) → us = []
  inside : own.Inside i F.marks V.size W.size
  free : own.Free Q
  reads : ∀ x, ¬ Generated x → ∀ a ∈ as, x ∈ a.erase.reads → x ∈ F.reads
  waits : Waits hosts names i Q k (W.updates debt) as vs us own

variable {hosts} {names : List Name} {F G : Footprint} {i j k l : FrameId} {P Q R : Bond}
  {V W X : Scene} {w w' : World} {t a c : Code} {ts as : List Code} {v r : Value}
  {vs vs' : List Value} {us us' debt : List Update} {own own' : Pending} {x z : Name}

/-! ### What is owed and what is pending -/

theorem Owed.passage {marks : List Nat} {pure : Bool} (h : Owed names P V us)
    (hP : Agree names P V) (hp : Passage names i marks pure P V Q W) : Owed names Q W us := by
  intro u hu
  obtain ⟨hn, ⟨g, hg⟩, hs⟩ := h u hu
  refine ⟨hn, ⟨g, hp.later.frames hg⟩, ?_⟩
  rw [hp.grows.isSome u.frame (hP.frames_lt hg).1]
  exact hs

theorem Owed.append (h : Owed names P V us) (h' : Owed names P V us') :
    Owed names P V (us ++ us') :=
  List.forall_mem_append.mpr ⟨h, h'⟩

theorem Owed.right (h : Owed names P V (debt ++ us)) : Owed names P V us :=
  fun u hu => h u (List.mem_append_right debt hu)

/-- Making the updates that are owed, as a growth of the scene. -/
theorem Owed.grows (h : Owed names P V us) :
    V.Grows (fun g x => x ∉ names ∨ ∀ g', ¬ P.frames g g') (V.updates us) := by
  refine .of_updates (fun u hu => (h u hu).2.2) fun u hu => ?_
  obtain ⟨hn, ⟨g, hg⟩, -⟩ := h u hu
  rintro (hx | hx)
  · exact hx hn
  · exact hx g hg

namespace Pending.Inside

variable {marks marks' : List Nat} {s s' s'' : Nat}

theorem nothing : Pending.nothing.Inside i marks s s' := ⟨fun _ h => h.elim, fun _ h => h.elim⟩

theorem mono {m m' : Nat} (h : own.Inside i marks s s') (hm : marks ⊆ marks') (hs : m ≤ s)
    (hs' : s' ≤ m') : own.Inside i marks' m m' :=
  ⟨fun p hp => (h.funs p hp).mono hm hs hs', fun f hf =>
    ⟨Nat.le_trans hs (h.frames f hf).1, Nat.lt_of_lt_of_le (h.frames f hf).2 hs'⟩⟩

theorem both (h : own.Inside i marks s s') (h' : own'.Inside i marks s s') :
    (own.both own').Inside i marks s s' :=
  ⟨fun p hp => hp.elim (h.funs p) (h'.funs p), fun f hf => hf.elim (h.frames f) (h'.frames f)⟩

/-- What one term makes is not made by those after it. -/
theorem not_ground (h : own.Inside i marks s s') (hi : i < s) (hs : s ≤ s')
    (hd : marks.Disjoint marks') {p : Nat × FrameId} (hp : own.funs p) :
    ¬ Ground i marks' s' s'' p := by
  rcases h.funs p hp with ⟨rfl, hm⟩ | ⟨hle, hlt⟩
  · rintro (⟨-, hm'⟩ | ⟨e, -⟩)
    · exact hd hm hm'
    · exact Nat.lt_irrefl _ (Nat.lt_of_lt_of_le hi (Nat.le_trans hs e))
  · rintro (⟨rfl, -⟩ | ⟨e, -⟩)
    · exact Nat.lt_irrefl _ (Nat.lt_of_lt_of_le hi hle)
    · exact Nat.lt_irrefl _ (Nat.lt_of_lt_of_le hlt e)

theorem apart (h : own.Inside i marks s s') (h' : own'.Inside i marks' s' s'') (hi : i < s)
    (hs : s ≤ s') (hd : marks.Disjoint marks') : own.Apart own' := by
  refine ⟨fun p hp hp' => h.not_ground hi hs hd hp (h'.funs p hp'), fun f hf hf' => ?_⟩
  exact Nat.lt_irrefl _ (Nat.lt_of_lt_of_le (h.frames f hf).2 (h'.frames f hf').1)

/-- What is pending stays so while later terms are evaluated. -/
theorem free (h : own.Inside i marks s V.size) (hfree : own.Free P) (hi : i < s)
    (hs : s ≤ V.size) (hd : marks.Disjoint marks') {pure : Bool}
    (hp : Passage names i marks' pure P V Q W) : own.Free Q := by
  refine ⟨fun p hp' q e => ?_, fun f hf g e => ?_⟩
  · rcases hp.adds.funs e with e | e
    · exact hfree.funs p hp' q e
    · exact h.not_ground hi hs hd hp' e
  · rcases hp.adds.frames e with e | ⟨e, -⟩
    · exact hfree.frames f hf g e
    · exact absurd (h.frames f hf).2 (Nat.not_lt.mpr e)

end Pending.Inside

theorem Pending.Free.nothing (P : Bond) : Pending.nothing.Free P :=
  ⟨fun _ h => h.elim, fun _ h => h.elim⟩

/-! ### Reaching -/

theorem Poised.le (h : Poised names G i w P j V debt) (hFG : F.Le G) :
    Poised names F i w P j V debt :=
  ⟨h.agree, h.env, h.scene, h.console, fun l hl => h.fresh l (hFG.marks hl), h.owed,
    h.idle.imp_right fun e => ⟨hFG.isPure e.1, hFG.steady e.2⟩⟩

theorem Footprint.Unaware.idle (h : (Footprint.of ts).Unaware names debt) :
    debt = [] ∨ ((Footprint.of ts).isPure = true ∧ (Footprint.of ts).steady names = true) :=
  h.imp_right fun ⟨hp, hr⟩ => ⟨hp, steady_of hr⟩

/-- The runs are poised to evaluate other terms that cannot tell what is owed. -/
theorem Poised.part (h : Poised names G i w P j V debt) (hG : G.Unaware names debt)
    (hFG : (Footprint.of ts).Part G) : Poised names (.of ts) i w P j V debt :=
  ⟨h.agree, h.env, h.scene, h.console, fun l hl => h.fresh l (hFG.marks hl), h.owed,
    (hG.part hFG).idle⟩

/-- The runs have come to another moment, at which as much is owed. -/
theorem Poised.of_passage {marks : List Nat} {pure : Bool} (h : Poised names F i w P j V debt)
    (hp : Passage names i marks pure P V Q W) (hW : W.updates debt = w'.store.scene)
    (henv : Q.envs i k) (hconsole : Q.world.console = w'.console)
    (hfresh : ∀ l ∈ G.marks, ∀ q, ¬ P.funs (l, i) q) (hd : marks.Disjoint G.marks)
    (hidle : debt = [] ∨ (G.isPure = true ∧ G.steady names = true)) :
    Poised names G i w' Q k W debt :=
  ⟨hp.agree, henv, hW, hconsole, hp.fresh (h.agree.env_lt h.env).1 hfresh hd,
    h.owed.passage h.agree hp, hidle⟩

/-- After evaluating what was left of terms, nothing is owed or pending. -/
theorem Passage.settle {marks : List Nat} {pure : Bool}
    (hp : Passage names i marks pure P V Q W) (howed : Owed names Q W us)
    (hin : own.Inside i marks V.size W.size) (hpure : pure = true → us = [])
    (he : Evaluated hosts names Q W k as vs us own vs' R) :
    Passage names i marks pure P V R (W.updates us) := by
  have hgrows : V.Grows (fun g x => x ∉ names ∨ ∀ g', ¬ R.frames g g') (W.updates us) := by
    have hle {g : FrameId} {x : Name} (h : x ∉ names ∨ ∀ g', ¬ R.frames g g') :
        x ∉ names ∨ ∀ g', ¬ Q.frames g g' :=
      h.imp_right fun e g' hg => e g' (he.later.frames hg)
    exact (hp.grows.mono fun _ _ _ => hle).trans (howed.grows.mono fun _ _ _ => hle)
  refine ⟨hp.later.trans he.later, he.agree, hgrows, fun e => ?_, ⟨fun e => ?_, fun e => ?_⟩⟩
  · rw [hpure e]
    exact hp.still e
  · rw [Scene.updates_size]
    exact (he.adds.funs e).elim hp.adds.funs fun e => .inr (hin.funs _ e)
  · rw [Scene.updates_size]
    exact (he.adds.frames e).elim hp.adds.frames fun e => .inr (hin.frames _ e)

namespace Reached

theorem le (h : Reached hosts names F i P j V debt vs w Q k W as us own) (hFG : F.Le G) :
    Reached hosts names G i P j V debt vs w Q k W as us own where
  passage := h.passage.widen hFG.marks hFG.isPure
  env := h.env
  follows := h.follows
  scene := h.scene
  console := h.console
  owed := h.owed
  quiet e := h.quiet (hFG.assigns e)
  pure := h.pure
  inside := h.inside.mono hFG.marks (Nat.le_refl _) (Nat.le_refl _)
  free := h.free
  reads x hx a ha hxa := hFG.reads (h.reads x hx a ha hxa)
  waits := h.waits

/-- The second run is still where it was. -/
theorem here (h : Poised names F i w P j V debt)
    (hr : ∀ a ∈ as, a.erase.reads ⊆ F.reads)
    (hw : Waits hosts names i P j (V.updates debt) as vs [] .nothing) :
    Reached hosts names F i P j V debt vs w P j V as [] .nothing where
  passage := .refl h.agree
  env := h.env
  follows _ _ _ := id
  scene := by
    rw [List.append_nil]
    exact h.scene
  console := h.console
  owed := by
    rw [List.append_nil]
    exact h.owed
  quiet _ := rfl
  pure _ := rfl
  inside := .nothing
  free := .nothing P
  reads x _ a ha hxa := hr a ha hxa
  waits := hw

/-- The first run has made a function without a name. -/
theorem anonymous {lam lam' : Lambda} {ret : Name}
    (h : Poised names (.of [lam.literal]) i w P j V debt) (hlit : Counterpart names lam lam' ret)
    (hname : lam.name? = none) :
    Reached hosts names (.of [lam.literal]) i P j V debt [.closure lam i] w P j V [lam'.literal] []
      (.function lam.label i) where
  passage := .refl h.agree
  env := h.env
  follows _ _ _ := id
  scene := by
    rw [List.append_nil]
    exact h.scene
  console := h.console
  owed := by
    rw [List.append_nil]
    exact h.owed
  quiet _ := rfl
  pure _ := rfl
  inside := ⟨fun _ hp => hp ▸ .inl ⟨rfl, lam.label_mem_marks⟩, fun _ hf => hf.elim⟩
  free := ⟨fun _ hp => hp ▸ h.fresh _ lam.label_mem_marks, fun _ hf => hf.elim⟩
  reads x _ a ha hxa := by
    cases List.mem_singleton.mp ha
    cases hxa
  waits := .anonymous hlit hname

/-- The first run has made a function with a name, and a frame for it. -/
theorem named {lam lam' : Lambda} {ret : Name}
    (h : Poised names (.of [lam.literal]) i w P j V debt) (hlit : Counterpart names lam lam' ret)
    (hname : lam.name? = some x) (hx : ¬ Generated x)
    (hscene : w'.store.scene = (w.store.scene.push i).set V.size x (.closure lam V.size))
    (hconsole : w'.console = w.console) :
    Reached hosts names (.of [lam.literal]) i P j V debt [.closure lam V.size] w' P j
      ((V.push i).set V.size x (.closure lam V.size)) [lam'.literal] []
      (.named lam.label V.size) := by
  have henters := (Scene.enters_push V i).set x (.closure lam V.size)
  have hsize : V.size < ((V.push i).set V.size x (.closure lam V.size)).size := Nat.lt_succ_self _
  have hi := (h.agree.env_lt h.env).1
  have hdebt (u : Update) (hu : u ∈ debt) : u.frame ≠ V.size := by
    obtain ⟨-, ⟨g, hg⟩, -⟩ := h.owed u hu
    exact Nat.ne_of_lt (h.agree.frames_lt hg).1
  have hp : Passage names i (Footprint.of [lam.literal]).marks (Footprint.of [lam.literal]).isPure
      P V P ((V.push i).set V.size x (.closure lam V.size)) :=
    .of_grow h.agree (henters.grows _) (henters.blank h.agree.blank)
  exact {
    passage := hp
    env := h.env
    follows := fun _ _ _ => id
    scene := by
      rw [List.append_nil, Scene.updates_set hdebt, Scene.updates_push, h.scene, hscene]
    console := h.console.trans hconsole.symm
    owed := by
      rw [List.append_nil]
      exact h.owed.passage h.agree hp
    quiet := fun _ => rfl
    pure := fun _ => rfl
    inside := by
      refine ⟨fun p hp => ?_, fun f hf => ?_⟩
      · cases hp
        exact .inr ⟨Nat.le_refl _, hsize⟩
      · cases hf
        exact ⟨Nat.le_refl _, hsize⟩
    free := by
      refine ⟨fun p hp q e => ?_, fun f hf g e => ?_⟩
      · cases hp
        exact Nat.lt_irrefl _ (h.agree.funs_lt e).1
      · cases hf
        exact Nat.lt_irrefl _ (h.agree.frames_lt e).1
    reads := by
      intro x _ a ha hxa
      cases List.mem_singleton.mp ha
      cases hxa
    waits := by
      refine .named hlit hname hx ?_ (by simp) ?_ fun y => ?_
      · simpa using Nat.lt_trans hi hsize
      · rw [Scene.updates_chain, Scene.updates_chain, henters.chain,
          (henters.grows fun _ _ => True).chain hi]
      · rw [Scene.updates_slot_of_ne fun u hu e => absurd e (hdebt u hu), Scene.set_slot,
          Scene.push_slot, h.agree.blank _ _ (Nat.le_refl _)]
        simp }

/-- A term that does something with the values that wait. -/
theorem map (h : Reached hosts names F i P j V debt vs w Q k W as us own)
    (hp : c.erase.isPure = true → ∀ a ∈ as, a.erase.isPure = true)
    (hr : ∀ x ∈ c.erase.reads, ∃ a ∈ as, x ∈ a.erase.reads)
    (hw : Waits hosts names i Q k (W.updates debt) [c] [r] us own) :
    Reached hosts names F i P j V debt [r] w Q k W [c] us own :=
  { h with
    pure := fun e => h.pure (hp (e c (List.mem_singleton_self c)))
    reads := fun x hx b hb hxb => by
      cases List.mem_singleton.mp hb
      obtain ⟨a, ha, hxa⟩ := hr x hxb
      exact h.reads x hx a ha hxa
    waits := hw }

/-- The first run has assigned the value to a name. -/
theorem assign {f : FrameId} (w' : World)
    (h : Reached hosts names F i P j V debt [v] w Q k W [a] us own) (hF : F.assigns = true)
    (hn : x ∈ names) (hx : ¬ Generated x) (hr : x ∈ F.reads)
    (hf : w.store.scene.resolve i x = some f)
    (hscene : w'.store.scene = w.store.scene.set f x v) (hconsole : w'.console = w.console) :
    Reached hosts names F i P j V debt [v] w' Q k W [.assign (.var x) a] (us ++ [⟨f, x, v⟩])
      own := by
  have hmem : f ∈ W.chain i := by
    have hmem := Scene.mem_chain_of_resolve hf
    rwa [← h.scene, Scene.updates_chain] at hmem
  have hslot : (W.slot f x).isSome = true := by
    have hslot := Scene.isSome_of_resolve hf
    rw [← h.scene, Scene.isSome_updates_slot] at hslot
    · exact hslot
    · exact fun u hu => (h.owed u hu).2.2
  exact { h with
    scene := by
      rw [← List.append_assoc, Scene.updates_append, h.scene, hscene]
      rfl
    console := h.console.trans hconsole.symm
    owed := by
      rw [← List.append_assoc]
      refine h.owed.append fun u hu => ?_
      cases List.mem_singleton.mp hu
      exact ⟨hn, (h.passage.agree.envs_chain h.env).matched hmem, hslot⟩
    quiet := fun e => absurd (hF.symm.trans e) nofun
    pure := fun e => absurd (e _ (List.mem_singleton_self _)) nofun
    reads := fun y hy b hb hyb => by
      cases List.mem_singleton.mp hb
      rcases List.mem_cons.mp hyb with rfl | hyb
      · exact hr
      · exact h.reads y hy a (List.mem_singleton_self a) hyb
    waits := by
      refine h.waits.assign hx (fun g hg => ?_) ?_
      · rw [Scene.updates_chain] at hg
        simpa using (h.passage.agree.envs_lt h.env).1 g hg
      · rw [← Scene.updates_append, h.scene, hf] }

/-- Something has happened before. -/
theorem after (h : Reached hosts names F i Q k W debt vs w R l X as us own)
    (hp : Passage names i F.marks F.isPure P V Q W) (hF : P.Follows j Q k) :
    Reached hosts names F i P j V debt vs w R l X as us own :=
  { h with
    passage := hp.trans h.passage
    follows := hF.trans h.follows
    inside := h.inside.mono (List.Subset.refl _) hp.grows.size_le (Nat.le_refl _) }

/-- The updates that are owed need not have been made for terms that cannot tell. -/
theorem grows_back (h : Reached hosts names F i P j V debt vs w Q k W as us own)
    (hF : F.Unaware names debt) : (W.updates debt).Grows (Kept as own) W := by
  rcases hF with rfl | ⟨-, hreads⟩
  · exact .refl _ _
  · have hdebt (u : Update) (hu : u ∈ debt) := h.owed u (List.mem_append_left us hu)
    refine .of_undone (fun u hu => (hdebt u hu).2.2) fun u hu => ?_
    obtain ⟨hn, ⟨g, hg⟩, -⟩ := hdebt u hu
    rintro (⟨hx, a, ha, hxa⟩ | hf)
    · exact hreads u.name (h.reads u.name hx a ha hxa) hn
    · exact h.free.frames u.frame hf g hg

/-- What waits is evaluated, perhaps after entering a frame. -/
theorem settle (h : Reached hosts names F i P j V debt vs w Q k W as us own)
    (hF : F.Unaware names debt) (hp : Passage names i F.marks F.isPure Q W R W)
    (hfollows : Q.Follows k R l) (henv : R.envs i l) (hfree : own.Free R) (hready : R.Ready as l) :
    ∃ vs' S, Evaluated hosts names R W l as vs us own vs' S ∧
      Passage names i F.marks F.isPure P V S (W.updates us) := by
  obtain ⟨vs', S, he⟩ :=
    h.waits R l W hp.later hfollows henv hp.agree (h.grows_back hF) hfree hready
  refine ⟨vs', S, he, ?_⟩
  exact (h.passage.trans hp).settle (h.owed.right.passage h.passage.agree hp) h.inside
    (fun e => h.quiet (Footprint.assigns_of_isPure e)) he

/-- Then only the updates are owed that were owed before. -/
theorem scene_settled (h : Reached hosts names F i P j V debt vs w Q k W as us own)
    (hF : F.Unaware names debt) : (W.updates us).updates debt = w.store.scene := by
  rcases hF with rfl | ⟨hpure, -⟩
  · exact h.scene
  · have hscene := h.scene
    rw [h.quiet (Footprint.assigns_of_isPure hpure), List.append_nil] at hscene
    rw [h.quiet (Footprint.assigns_of_isPure hpure)]
    exact hscene

/-- A continuation has been applied to the value: the value waits as its parameter. -/
theorem returned {v' : Value} (hA : Agree names P V) (howed : Owed names P V debt)
    (hp : Passage names i F.marks F.isPure P V Q W) (hW : W.updates debt = w.store.scene)
    (hconsole : Q.world.console = w.console) (hv : Rel names Q v v') (hz : Generated z)
    (he : Entered names Q k z v' (Q.enterAside i k z v') W i)
    (hF : P.Follows j (Q.enterAside i k z v') Q.scene.size) :
    Reached hosts names F i P j V debt [v] w (Q.enterAside i k z v') Q.scene.size W [.var z] []
      .nothing where
  passage := hp.trans (passage_aside he)
  env := he.env
  follows := hF
  scene := by
    rw [List.append_nil]
    exact hW
  console := hconsole
  owed := by
    rw [List.append_nil]
    exact howed.passage hA (hp.trans (passage_aside he))
  quiet _ := rfl
  pure _ := rfl
  inside := .nothing
  free := .nothing _
  reads x hx a ha hxa := by
    cases List.mem_singleton.mp ha
    exact absurd hz (List.mem_singleton.mp hxa ▸ hx)
  waits := .generated he.agree hz he.sees (hv.mono hp.agree he.later)

/-- What a term waits for is not changed by a later term that it may not be disturbed by. -/
theorem kept (h : Reached hosts names (.of [t]) i P j V debt vs w Q k W as us own)
    (hfree : own.Free R) {pure : Bool} {marks : List Nat}
    (hp : Passage names i marks pure Q W R X)
    (hdist : pure = true ∨ t.erase.quiet names = true) : W.Grows (Kept as own) X := by
  rcases hdist with e | e
  · exact (hp.still e).mono fun _ _ _ _ => trivial
  · refine hp.grows.mono ?_
    rintro g - x (⟨hx, a, ha, hxa⟩ | hg)
    · obtain ⟨u, hu, hxu⟩ := Footprint.mem_reads_of.mp (h.reads x hx a ha hxa)
      cases List.mem_singleton.mp hu
      have hall := (Bool.and_eq_true_iff.mp e).2
      exact .inl (of_decide_eq_true (List.all_eq_true.mp hall x hxu))
    · exact .inr (hfree.frames g hg)

/-- One term after another. -/
theorem cons (hi : i < V.size) (hmarks : (marksAll (t :: ts)).Nodup)
    (hdist : (Footprint.of ts).isPure = true ∨ t.erase.quiet names = true)
    (h : Reached hosts names (.of [t]) i P j V debt [v] w Q k W [a] us own)
    (h' : Reached hosts names (.of ts) i Q k W (debt ++ us) vs w' R l X as us' own') :
    Reached hosts names (.of (t :: ts)) i P j V debt (v :: vs) w' R l X (a :: as) (us ++ us')
      (own.both own') := by
  have hle := Footprint.head_le t ts
  have hle' := Footprint.tail_le t ts
  have hVW := h.passage.grows.size_le
  have hd : (Footprint.of [t]).marks.Disjoint (Footprint.of ts).marks :=
    Term.disjoint_marksAll hmarks
  have hfree : own.Free R := h.inside.free h.free hi hVW hd h'.passage
  exact {
    passage := (h.passage.widen hle.marks hle.isPure).trans
      (h'.passage.widen hle'.marks hle'.isPure)
    env := h'.env
    follows := h.follows.trans h'.follows
    scene := by
      rw [← List.append_assoc]
      exact h'.scene
    console := h'.console
    owed := by
      rw [← List.append_assoc]
      exact h'.owed
    quiet := fun e => by
      rw [h.quiet (hle.assigns e), h'.quiet (hle'.assigns e)]
      rfl
    pure := fun e => by
      rw [List.forall_mem_cons] at e
      rw [h.pure (List.forall_mem_singleton.mpr e.1), h'.pure e.2]
      rfl
    inside := by
      refine .both (h.inside.mono hle.marks (Nat.le_refl _) h'.passage.grows.size_le) ?_
      exact h'.inside.mono hle'.marks hVW (Nat.le_refl _)
    free := hfree.both h'.free
    reads := fun x hx b hb hxb => by
      rcases List.mem_cons.mp hb with rfl | hb
      · exact hle.reads (h.reads x hx b (List.mem_singleton_self b) hxb)
      · exact hle'.reads (h'.reads x hx b hb hxb)
    waits := by
      refine .cons (h.waits.later h'.passage.later h'.follows ?_) ?_
        (h.inside.apart h'.inside hi hVW hd)
      · exact (h.kept hfree h'.passage hdist).updates debt
      · rw [← Scene.updates_append]
        exact h'.waits }

/-- The runs are poised to evaluate the terms that follow. -/
theorem poised (h : Reached hosts names (.of [t]) i P j V debt vs w Q k W as us own)
    (hP : Poised names F i w' P j V debt) (hfresh : ∀ l ∈ marksAll ts, ∀ q, ¬ P.funs (l, i) q)
    (hmarks : (marksAll (t :: ts)).Nodup) (hidle : debt ++ us = [] ∨
      ((Footprint.of ts).isPure = true ∧ (Footprint.of ts).steady names = true)) :
    Poised names (.of ts) i w Q k W (debt ++ us) where
  agree := h.passage.agree
  env := h.env
  scene := h.scene
  console := h.console
  fresh := h.passage.fresh (hP.agree.env_lt hP.env).1 hfresh (Term.disjoint_marksAll hmarks)
  owed := h.owed
  idle := hidle

end Reached

end LetLambda
