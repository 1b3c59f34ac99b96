import LetLambda.Interpreter
import Mathlib.Data.List.Forall2

/-!
# Host functions that do not touch environments

A host function is detached if it leaves the frames alone and treats functions of the language as
things that can be shown, compared and passed on, but not looked into. Detached functions cannot
tell two runs apart in which corresponding functions have different bodies. The functions of the
prelude only write to the console (`HostFunction.writing`), and are detached.
-/

namespace LetLambda

/-- Values that are shown alike: they are the same, or functions with the same name. -/
inductive Value.Alike : Value → Value → Prop where
  | int (n : Int64) : Alike (.int n) (.int n)
  | str (s : String) : Alike (.str s) (.str s)
  | bool (b : Bool) : Alike (.bool b) (.bool b)
  | host (x : Name) (id : Nat) : Alike (.host x id) (.host x id)
  | closure {f g : Lambda} {i j : FrameId} (h : f.name? = g.name?) :
      Alike (.closure f i) (.closure g j)

theorem Value.Alike.text {v v' : Value} (h : v.Alike v') : v.text = v'.text := by
  cases h with
  | closure h =>
    simp only [Value.text]
    rw [h]
  | _ => rfl

/-- A correspondence of values that tells nothing apart but functions, and these by equality. -/
structure Faithful (r : Value → Value → Prop) : Prop where
  alike : ∀ {v v'}, r v v' → v.Alike v'
  refl : ∀ {v}, (∀ f i, v ≠ .closure f i) → r v v
  same : ∀ {a a' b b'}, r a a' → r b b' → a'.same b' = a.same b

/-- A host function leaves the frames alone, and what it does with values does not hang on what
functions of the language are made of. -/
structure HostFunction.Detached (host : HostFunction) : Prop where
  store : ∀ args w, (host args w).2.store = w.store
  uniform : ∀ {r}, Faithful r → ∀ {args args' w w' v}, List.Forall₂ r args args' →
    w'.console = w.console → (host args w).1 = .ok v →
    ∃ v', (host args' w').1 = .ok v' ∧ r v v' ∧ (host args' w').2.console = (host args w).2.console

namespace HostFunction

theorem spaced_eq {r : Value → Value → Prop} (hr : Faithful r) {args args' : List Value}
    (h : List.Forall₂ r args args') : spaced args' = spaced args := by
  have htexts : args'.map Value.text = args.map Value.text := by
    induction h with
    | nil => rfl
    | cons h _ ih => rw [List.map_cons, List.map_cons, ih, (hr.alike h).text]
  rw [spaced, spaced, htexts]

/-- Writes the arguments to the console, in the way that `write` says. -/
def writing (write : String → Console → Console) : HostFunction := fun args world =>
  (.ok .absent, { world with console := write (spaced args) world.console })

theorem detached_writing (write : String → Console → Console) : (writing write).Detached where
  store _ _ := rfl
  uniform {r} hr {args args' w w' v} hargs hw h := by
    cases h
    refine ⟨.absent, rfl, hr.refl nofun, ?_⟩
    simp only [writing, hw, spaced_eq hr hargs]

end HostFunction

namespace Interpreter

variable {P : HostFunction → Prop} {i : Interpreter}

/-- A number that was never given out stands for a function that writes nothing. -/
theorem host_of_forall (hidle : P (.writing fun _ console => console)) (h : ∀ f ∈ i.hosts, P f)
    (id : Nat) : P (i.host id) := by
  unfold host
  cases hf : i.hosts[id]? with
  | none => exact hidle
  | some f => exact h f (Array.mem_of_getElem? hf)

theorem forall_hosts_withPrelude (hP : ∀ write, P (.writing write)) (h : ∀ f ∈ i.hosts, P f) :
    ∀ f ∈ i.withPrelude.hosts, P f := by
  intro f hf
  rcases Array.mem_push.mp hf with hf | rfl
  · rcases Array.mem_push.mp hf with hf | rfl
    · exact h f hf
    · exact hP Console.print
  · exact hP Console.printLine

theorem host_detached (h : ∀ f ∈ i.hosts, f.Detached) (id : Nat) : (i.host id).Detached :=
  host_of_forall (HostFunction.detached_writing _) h id

end Interpreter

end LetLambda
