import LetLambda.Proofs.PassingForm
import LetLambda.Proofs.Refinement
import LetLambda.Proofs.Simulation

/-!
# The transform preserves meaning

Running an order-safe tree and running its transform come to the same: where the first ends with a
value, the second ends with this value, or with a function that is shown alike, has printed the same
and has left the same in the global frame.
-/

namespace LetLambda

open Term (marksAll bindersAll)
open Interpreter (globals)

/-! ### The global frame -/

/-- There is a global frame and no other, and functions of the language are not bound there. -/
structure World.Elementary (w : World) : Prop where
  frames : ∃ slots, w.store.frames = #[⟨slots, []⟩]
  values : ∀ x v, w.store.lookup? globals x = some v → ∀ f i, v ≠ .closure f i

/-- Names that are seen from the global frame in two worlds have values that are shown alike. -/
def World.SameGlobals (w w' : World) : Prop :=
  ∀ x, Option.Rel Value.Alike (w.store.lookup? globals x) (w'.store.lookup? globals x)

/-- The bond of two runs that have not begun: only the global frame is there. -/
def Bond.start (w : World) : Bond where
  frames f g := f = globals ∧ g = globals
  envs i j := i = globals ∧ j = globals
  funs _ _ := False
  aux _ := False
  world := w

variable {names : List Name} {w w' : World} {P : Bond} {V W : Scene}

theorem Scene.lookup_eq_slot {f : FrameId} (h : V.chain f = [f]) (x : Name) :
    V.lookup f x = V.slot f x := by
  rw [lookup, resolve, h, List.find?_singleton]
  cases hs : V.slot f x with
  | none => rfl
  | some v => exact hs

theorem Store.chain_globals {s : Store} {slots : List (Name × Slot)}
    (hs : s.frames = #[⟨slots, []⟩]) : s.scene.chain globals = [globals] := by
  simp [Scene.chain, scene, outer, hs, globals]

theorem Store.lookup_globals {s : Store} {slots : List (Name × Slot)}
    (hs : s.frames = #[⟨slots, []⟩]) (x : Name) :
    s.lookup? globals x = s.scene.slot globals x := by
  rw [← scene_lookup, Scene.lookup_eq_slot (chain_globals hs)]

namespace World.Elementary

theorem size_scene (h : w.Elementary) : w.store.scene.size = 1 := by
  obtain ⟨slots, hs⟩ := h.frames
  rw [Store.scene_size, hs]
  rfl

theorem chain_globals (h : w.Elementary) : w.store.scene.chain globals = [globals] := by
  obtain ⟨slots, hs⟩ := h.frames
  exact Store.chain_globals hs

theorem ne_closure (h : w.Elementary) {x : Name} {v : Value}
    (hv : w.store.scene.slot globals x = some v) : ∀ f i, v ≠ .closure f i := by
  obtain ⟨slots, hs⟩ := h.frames
  exact h.values x v ((Store.lookup_globals hs x).trans hv)

/-- Values other than functions of the language may be bound in the global frame. -/
theorem define (h : w.Elementary) (x : Name) {v : Value} (hv : ∀ f i, v ≠ .closure f i) :
    World.Elementary { w with store := w.store.define globals x v } := by
  obtain ⟨slots, hs⟩ := h.frames
  have hpos : globals < w.store.frames.size := by
    rw [hs]
    exact Nat.one_pos
  have hframes : (w.store.define globals x v).frames = #[⟨Frame.insert x (.value v) slots, []⟩] := by
    simp [Store.define, Store.fill, hs, globals, Frame.bind]
  refine ⟨⟨_, hframes⟩, fun y a ha => ?_⟩
  rw [Store.lookup_globals hframes, Store.scene_define hpos, Scene.set_slot] at ha
  by_cases hy : y = x
  · rw [if_pos ⟨rfl, hy⟩] at ha
    cases ha
    exact hv
  · rw [if_neg fun e => hy e.2] at ha
    exact h.ne_closure ha

end World.Elementary

theorem agree_start (h : w.Elementary) : Agree names (.start w) w.store.scene where
  frames_lt := by
    rintro f g ⟨rfl, rfl⟩
    rw [Bond.scene, Bond.start, h.size_scene]
    exact ⟨Nat.one_pos, Nat.one_pos⟩
  frames_left := by
    rintro f g g' ⟨-, rfl⟩ ⟨-, rfl⟩
    rfl
  frames_right := by
    rintro f f' g ⟨rfl, -⟩ ⟨rfl, -⟩
    rfl
  aux_lt := nofun
  aux_frames := nofun
  envs_chain := by
    rintro i j ⟨rfl, rfl⟩
    rw [Bond.scene, Bond.start, h.chain_globals]
    exact .pair ⟨rfl, rfl⟩ .nil
  funs_envs := nofun
  funs_left := nofun
  funs_right := nofun
  globals := ⟨rfl, rfl⟩
  slots := by
    rintro f g x ⟨rfl, rfl⟩ -
    change Option.Rel _ (w.store.scene.slot globals x) (w.store.scene.slot globals x)
    cases hs : w.store.scene.slot globals x with
    | none => exact .none
    | some v =>
      exact .some (Rel.refl_of_ne_closure (h.ne_closure hs))
  aux_slots := nofun
  blank := Store.scene_blank _

theorem Rel.slot_alike {a b : Option Value} (h : Option.Rel (Rel names P) a b) :
    Option.Rel Value.Alike a b := by
  cases h with
  | none => exact .none
  | some h => exact .some h.alike

/-- Where two runs agree at the end, they have left the same in the global frame. -/
theorem sameGlobals_of_agree (hA : Agree names P w'.store.scene) (hw : w.Elementary)
    {keep : FrameId → Name → Prop} (hgrows : w.store.scene.Grows keep w'.store.scene)
    (hlater : (Bond.start w).Later P) : w'.SameGlobals P.world := by
  have hpos : globals < w.store.scene.size := by
    rw [hw.size_scene]
    exact Nat.one_pos
  have hchain := (hgrows.chain hpos).trans hw.chain_globals
  have hchain' := (hlater.scene.chain hpos).trans hw.chain_globals
  intro x
  rw [← Store.scene_lookup, ← Store.scene_lookup, Scene.lookup_eq_slot hchain]
  change Option.Rel _ _ (P.scene.lookup globals x)
  rw [Scene.lookup_eq_slot hchain']
  exact Rel.slot_alike (hA.slots hA.globals (.inl rfl))

/-! ### Evaluation -/

variable {hosts : Hosts} {t m : Code} {v : Value} {fuel : Nat}

/-- **What a safe term gives in a global frame, its transform gives.** -/
theorem answers_of_passes (hdet : ∀ id, (hosts id).Detached) (hw : w.Elementary)
    (hsafe : Safe names t.erase) (hmarks : t.marks.Nodup) (hm : Passes t (fun v m => m = v) m)
    (hmarks' : m.marks.Nodup) (hbinders : m.binders.Nodup)
    (h : Direct.evaluate hosts .implicit fuel t globals w = some (.ok v, w')) :
    Answers hosts (fun v' w'' => v.Alike v' ∧ w''.console = w'.console ∧ w'.SameGlobals w'') m
      globals w := by
  have hA : Agree names (.start w) w.store.scene := agree_start hw
  have hpoised : Poised names (.of [t]) globals w (.start w) globals w.store.scene [] :=
    { agree := hA
      env := ⟨rfl, rfl⟩
      scene := rfl
      console := rfl
      fresh := nofun
      owed := nofun
      idle := .inl rfl }
  have hready : (Bond.start w).Ready [m] globals := by
    refine ⟨by simpa [marksAll] using hmarks', by simpa [bindersAll] using hbinders, nofun, ?_⟩
    intro b hb g hg hne
    rw [Bond.scene, Bond.start, hw.chain_globals] at hg
    exact absurd (List.mem_singleton.mp hg) hne
  have hm : PassesAll [t] (fun as m => as = [m]) m :=
    Passes.mono t (fun a m hm => congrArg (fun a => [a]) hm.symm) hm
  refine (SimulatedWith.all hdet fuel).evaluate hsafe hmarks h hpoised hm hready ?_
  -- What is left is the term whose value is that of the whole.
  rintro Q k W _ us own a rfl hreach hready₁
  have hW : W.updates us = w'.store.scene := hreach.scene_settled (.inl rfl)
  obtain ⟨vs', R, he, hp⟩ := hreach.settle (.inl rfl) (.refl hreach.passage.agree)
    (fun _ _ _ => id) hreach.env hreach.free hready₁
  rw [hW] at hp
  obtain ⟨v', rfl, hv'⟩ := givesAll_singleton.mp he.gives
  refine answers_of_gives hv' ⟨?_, he.console.trans hreach.console, ?_⟩
  · cases he.values with
    | cons hv _ => exact hv.alike
  · exact sameGlobals_of_agree hp.agree hw hp.grows hp.later

/-! ### Interpreters -/

namespace Interpreter

/-- An interpreter that has not run anything: there is but the global frame, in which functions of
the language are not bound, and the host functions do not touch environments. -/
structure Elementary (i : Interpreter) : Prop where
  world : i.world.Elementary
  hosts : ∀ f ∈ i.hosts, f.Detached

theorem elementary_new (maxDepth : Nat) (convention : Convention) (console : Console) :
    (new maxDepth convention console).Elementary :=
  ⟨⟨⟨[], rfl⟩, nofun⟩, nofun⟩

namespace Elementary

variable {i : Interpreter} {x : Name}

theorem defineHost (h : i.Elementary) {f : HostFunction} (hf : f.Detached) :
    (i.defineHost x f).Elementary := by
  refine ⟨h.world.define x nofun, fun g hg => ?_⟩
  rcases Array.mem_push.mp hg with hg | rfl
  · exact h.hosts g hg
  · exact hf

/-- The prelude may be bound in the global frame. -/
theorem withPrelude (h : i.Elementary) : i.withPrelude.Elementary :=
  (h.defineHost (HostFunction.detached_writing Console.print)).defineHost
    (HostFunction.detached_writing Console.printLine)

end Elementary

/-- The same interpreter with a new machine. -/
def under (i : Interpreter) (maxDepth : Nat) (convention : Convention) : Interpreter :=
  { i with machine := Machine.new maxDepth convention }

/-- Of a well-formed tree, an interpreter finds what the evaluator gives of the numbered tree. -/
theorem run_under_iff {i : Interpreter} (maxDepth : Nat) {convention : Convention} {t : Tree}
    (ht : t.check = .ok ()) {c : Code} {n : Nat} (hc : t.label.run i.nextLabel = (c, n))
    {result : Except EvalError Value} {w : World} :
    (∃ fuel j, (i.under maxDepth convention).run fuel t = some (result, j) ∧ j.world = w) ↔
      ∃ fuel, Direct.evaluate i.host convention fuel c globals i.world = some (result, w) := by
  have hcheck : c.check = .ok () := by
    obtain ⟨c', d, hc', he, -⟩ := t.label_spec i.nextLabel
    rw [hc] at hc'
    cases hc'
    rw [← c.check_erase, he, ht]
  have hload : (i.under maxDepth convention).load t =
      (c, { i.under maxDepth convention with nextLabel := n }) := by
    rw [load, show t.label.run (i.under maxDepth convention).nextLabel = (c, n) from hc]
  rw [← Machine.run_iff_evaluate maxDepth hcheck]
  constructor
  · rintro ⟨fuel, j, h, rfl⟩
    rw [run, hload] at h
    obtain ⟨⟨r, ended⟩, hr, h⟩ := Option.map_eq_some_iff.mp h
    cases h
    exact ⟨fuel, ended, hr, rfl⟩
  · rintro ⟨fuel, ended, h, rfl⟩
    refine ⟨fuel, { (i.under maxDepth convention).after ended with nextLabel := n }, ?_, rfl⟩
    rw [run, hload]
    exact Option.map_eq_some_iff.mpr ⟨(result, ended), h, rfl⟩

end Interpreter

/-- **The transform preserves meaning.** Every tame tree without assignments is order-safe. An
order-safe tree has a transform; and wherever the tree, run from a global frame in which functions
of the language are not bound, ends with a value, its transform, run with functions that are told
where to go on from the same frame, ends with a value that is shown alike, has printed the same and
leaves the same in the global frame, whatever the depths at which the machines put tasks aside. -/
theorem transform_preserves_run {t : Tree} (ht : Tame t) :
    ((∀ s ∈ t.subterms, s.isAssignment = false) → OrderSafe t) ∧
      (OrderSafe t → ∀ i : Interpreter, i.Elementary → ∀ maxDepth maxDepth' fuel v i',
        (i.under maxDepth .implicit).run fuel t = some (.ok v, i') →
        ∃ m, t.transform = .ok m ∧ ∃ fuel' v' j',
          (i.under maxDepth' .explicit).run fuel' m = some (.ok v', j') ∧
          v.Alike v' ∧ j'.console = i'.console ∧ i'.world.SameGlobals j'.world) := by
  refine ⟨ht.orderSafe, fun hsafe i hi maxDepth maxDepth' fuel v i' h => ?_⟩
  obtain ⟨m, hm, hbinders⟩ := ht.exists_transform
  have htransform : t.transformWith .new id = (.ok m, (t.transformWith .new id).2) :=
    Prod.ext hm rfl
  refine ⟨m, hm, ?_⟩
  obtain ⟨c, d, hc, rfl, hmarks⟩ := t.label_spec i.nextLabel
  obtain ⟨c', d', hc', rfl, hmarks'⟩ := m.label_spec i.nextLabel
  obtain ⟨fuel, h⟩ := (Interpreter.run_under_iff maxDepth ht.check hc).mp ⟨fuel, i', h, rfl⟩
  obtain ⟨v', w', ⟨n, hn⟩, halike, hconsole, hglobals⟩ :=
    answers_of_passes (Interpreter.host_detached hi.hosts) hi.world hsafe.safe
      (hmarks ▸ List.nodup_range') (passes_of_transformWith markable_nat htransform).2
      (hmarks' ▸ List.nodup_range') (c'.binders_erase ▸ hbinders) h
  obtain ⟨fuel', j', hj, rfl⟩ :=
    (Interpreter.run_under_iff maxDepth' (passing_of_transformWith htransform).check hc').mpr
      ⟨n, hn n (Nat.le_refl n)⟩
  exact ⟨fuel', v', j', hj, halike, hconsole, hglobals⟩

/-- A function that calls itself, and assigns and prints on the way. -/
def summing : Tree :=
  .declare
    [⟨"n", some (.int 0)⟩,
      ⟨"add", some (.function () (some "add") ["k"]
        (.conditional (.binary "<" (.var "k") (.int 1)) (.var "n")
          (some (.seq
            [.assign (.var "n") (.binary "+" (.var "n") (.var "k")),
              .call (.var "println") [.str "so far", .var "n"],
              .call (.var "add") [.binary "-" (.var "k") (.int 1)]]))))⟩]
    (.binary "*" (.int 2) (.call (.var "add") [.int 3]))

/-- An interpreter that knows how to print. -/
def printing : Interpreter := (Interpreter.new 100 .implicit .empty).withPrelude

/-- Its host functions only write. -/
theorem host_printing {P : HostFunction → Prop} (hP : ∀ write, P (.writing write)) (id : Nat) :
    P (printing.host id) := by
  refine Interpreter.host_of_forall (hP _) (Interpreter.forall_hosts_withPrelude hP ?_) id
  exact fun f hf => absurd hf (Array.not_mem_empty f)

theorem transform_preserves_run_summing :
    OrderSafe summing ∧ printing.Elementary ∧ ∃ i',
      (printing.under 3 .implicit).run 200 summing = some (.ok (.int 12), i') ∧
      i'.console = .buffer "so far 3\nso far 5\nso far 6\n" ∧
      ∃ m, summing.transform = .ok m ∧ ∃ fuel' v' j',
        (printing.under 5 .explicit).run fuel' m = some (.ok v', j') ∧
        (Value.int 12).Alike v' ∧ j'.console = i'.console ∧ i'.world.SameGlobals j'.world := by
  have ht : Tame summing := ⟨by decide +kernel, rfl⟩
  have hsafe : OrderSafe summing := ⟨ht, by decide +kernel, by decide +kernel⟩
  have hi : printing.Elementary := (Interpreter.elementary_new 100 .implicit .empty).withPrelude
  obtain ⟨i', h, hconsole⟩ : ∃ i',
      (printing.under 3 .implicit).run 200 summing = some (.ok (.int 12), i') ∧
      i'.console = .buffer "so far 3\nso far 5\nso far 6\n" := ⟨_, rfl, by decide +kernel⟩
  exact ⟨hsafe, hi, i', h, hconsole, (transform_preserves_run ht).2 hsafe printing hi 3 5 200 _ i' h⟩

/-- An assignment, and a conditional after it that is done before. -/
def overtaken : Tree :=
  .declare [⟨"y", some (.int 1)⟩]
    (.binary "*" (.assign (.var "y") (.int 2))
      (.conditional (.binary "==" (.var "y") (.int 2)) (.int 5) (some (.int 6))))

/-- **It does not suffice that operands are undisturbed**: a pure conditional is still done before
an assignment in an operand in front of it. -/
theorem overtaken_not_preserved :
    Tame overtaken ∧
      (∀ s ∈ overtaken.subterms, s.operands.Pairwise fun a b =>
        Undisturbed overtaken.mutated a b = true) ∧
      printing.Elementary ∧
      (∃ i', (printing.under 100 .implicit).run 60 overtaken = some (.ok (.int 10), i')) ∧
      ∃ m, overtaken.transform = .ok m ∧
        ∃ j', (printing.under 100 .explicit).run 60 m = some (.ok (.int 12), j') := by
  refine ⟨⟨by decide +kernel, rfl⟩, by decide +kernel, ?_, ⟨_, rfl⟩, _, rfl, _, rfl⟩
  exact (Interpreter.elementary_new 100 .implicit .empty).withPrelude

end LetLambda
