import LetLambda.Proofs.Preservation

/-!
# What host functions do to frames

A host function is handed the world with all its frames. That it returns data or one of its
arguments says nothing of what it leaves in the frames: it may bind a name to a function of its own,
and what it has planted is in the run from then on (`HostFunction.plant`).

So something is to be said of the frames as well. Only the frames of a set `live` are spoken of, which
a run does not leave; frames that were there before and have nothing to do with it may hold anything.
A host function that reworks them (`Scene.Reworks`) may make frames, bind names and move values from
one name to another, but it brings in no functions of the language: what is bound in a frame of
`live` afterwards is plain, or was given to it, or was in a frame of `live` before.
-/

namespace LetLambda

open Interpreter (globals)

/-! ### Values -/

/-- Integers, strings and booleans. -/
def Value.IsData : Value → Prop
  | .int _ | .str _ | .bool _ => True
  | .closure .. | .host .. => False

/-- Data, and the host functions that are trusted. -/
def Value.Plain (trusted : Nat → Prop) : Value → Prop
  | .int _ | .str _ | .bool _ => True
  | .closure .. => False
  | .host _ id => trusted id

/-- If the value is a function of the language, it stands in a frame of `live`. -/
def Value.Within (live : FrameId → Prop) : Value → Prop
  | .closure _ f => live f
  | .int _ | .str _ | .bool _ | .host .. => True

/-- Plain values, and functions of the language that stand in frames of `live` and of which `Q`
holds. -/
def Value.Admitted (trusted : Nat → Prop) (live : FrameId → Prop) (Q : Lambda → FrameId → Prop) :
    Value → Prop
  | .int _ | .str _ | .bool _ => True
  | .closure lambda f => live f ∧ Q lambda f
  | .host _ id => trusted id

section

variable {trusted : Nat → Prop} {live : FrameId → Prop} {Q R : Lambda → FrameId → Prop} {v : Value}

theorem Value.IsData.plain (h : v.IsData) : v.Plain trusted := by
  cases v with
  | int n | str s | bool b => trivial
  | closure lambda f => cases h
  | host name id => cases h

theorem Value.Plain.admitted (h : v.Plain trusted) : v.Admitted trusted live Q := by
  cases v with
  | int n | str s | bool b => trivial
  | closure lambda f => cases h
  | host name id => exact h

theorem Value.Admitted.mono (h : ∀ lambda f, Q lambda f → R lambda f) (v : Value)
    (hv : v.Admitted trusted live Q) : v.Admitted trusted live R := by
  cases v with
  | int n | str s | bool b => trivial
  | closure lambda f => exact ⟨hv.1, h lambda f hv.2⟩
  | host name id => exact hv

theorem Value.Admitted.within (h : v.Admitted trusted live Q) : v.Within live := by
  cases v with
  | closure lambda f => exact h.1
  | int n | str s | bool b | host name id => trivial

end

/-! ### What frames hold -/

/-- From the frames of `live` no other frame is seen, frames to come being among them, and `P` holds
of every value that is read there. -/
structure Scene.Holding (P : Value → Prop) (live : FrameId → Prop) (V : Scene) : Prop where
  fresh : ∀ f, V.size ≤ f → live f
  chain : ∀ f, live f → ∀ g ∈ V.chain f, live g
  slots : ∀ f x v, live f → V.slot f x = some v → P v

namespace Scene.Holding

variable {P Q : Value → Prop} {live : FrameId → Prop} {V : Scene} {f i : FrameId} {x : Name}
  {v : Value} {vs : List Value}

theorem mono (hV : V.Holding P live) (h : ∀ v, P v → Q v) : V.Holding Q live :=
  ⟨hV.fresh, hV.chain, fun f x v hf hv => h v (hV.slots f x v hf hv)⟩

theorem lookup (hV : V.Holding P live) (hi : live i) (h : V.lookup i x = some v) : P v := by
  obtain ⟨g, hg, hv⟩ := Option.bind_eq_some_iff.mp h
  exact hV.slots g x v (hV.chain i hi g (mem_chain_of_resolve hg)) hv

theorem set (hV : V.Holding P live) (hv : P v) : (V.set f x v).Holding P live := by
  refine ⟨hV.fresh, hV.chain, fun g y u hg hu => ?_⟩
  by_cases hset : g = f ∧ y = x
  · rw [set_slot, if_pos hset] at hu
    cases hu
    exact hv
  · rw [set_slot, if_neg hset] at hu
    exact hV.slots g y u hg hu

theorem setAll (hV : V.Holding P live) (xs : List Name) (habsent : P .absent)
    (hvs : ∀ v ∈ vs, P v) : (V.setAll f xs vs).Holding P live := by
  induction xs generalizing V vs with
  | nil => exact hV
  | cons x xs ih =>
    cases vs with
    | nil => exact ih (hV.set habsent) hvs
    | cons v vs =>
      rw [List.forall_mem_cons] at hvs
      exact ih (hV.set hvs.1) hvs.2

theorem push (hV : V.Holding P live) (hi : live i) : (V.push i).Holding P live := by
  refine ⟨fun f hf => hV.fresh f (Nat.le_of_succ_le hf), fun f hf g hg => ?_, hV.slots⟩
  by_cases hnew : f = V.size
  · subst hnew
    rw [push_chain_self] at hg
    rcases List.mem_cons.mp hg with rfl | hg
    · exact hf
    · exact hV.chain i hi g hg
  · have hchain : (V.push i).chain f = V.chain f := by simp [Scene.chain, Scene.push, hnew]
    exact hV.chain f hf g (hchain ▸ hg)

end Scene.Holding

/-- The frames that a run from frame `env` may come by: those around it, and those to come. -/
def Scene.Domain (V : Scene) (env f : FrameId) : Prop := f ∈ V.chain env ∨ V.size ≤ f

/-- No frame stands around one that is not there. -/
theorem Store.scene_chain_of_le {s : Store} {f : FrameId} (h : s.frames.size ≤ f) :
    s.scene.chain f = [f] := by
  have hnone : s.frames[f]? = none := Array.getElem?_eq_none h
  simp [Scene.chain, Store.scene, Store.outer, hnone]

/-- No name is bound in a frame that is not there. -/
theorem Store.define_of_le {s : Store} {f : FrameId} (h : s.frames.size ≤ f) (x : Name) (v : Value) :
    s.define f x v = s := by
  have hframes : (s.define f x v).frames = s.frames := by
    refine Array.ext_getElem? fun g => Array.getElem?_modify.trans ?_
    by_cases hg : f = g
    · rw [if_pos hg, ← hg, Array.getElem?_eq_none h]
      rfl
    · rw [if_neg hg]
  exact congrArg Store.mk hframes

/-- Before a run, the frames that it may come by hold what the frames around `env` hold. -/
theorem Store.holding_domain {s : Store} {env : FrameId} {P : Value → Prop}
    (hchain : ∀ f ∈ s.scene.chain env, ∀ g ∈ s.scene.chain f, g ∈ s.scene.chain env)
    (hvalues : ∀ f ∈ s.scene.chain env, ∀ x v, s.scene.slot f x = some v → P v) :
    s.scene.Holding P (s.scene.Domain env) := by
  refine ⟨fun f hf => .inr hf, fun f hlive g hg => ?_, fun f x v hlive hv => ?_⟩
  · rcases hlive with hf | hf
    · exact .inl (hchain f hf g hg)
    · rw [Store.scene_chain_of_le hf, List.mem_singleton] at hg
      exact .inr (hg ▸ hf)
  · rcases hlive with hf | hf
    · exact hvalues f hf x v hv
    · rw [Store.scene_blank s f x hf] at hv
      cases hv

/-! ### What becomes of frames -/

/-- Frames have come in, those that were there stand where they stood, and the names that were bound
in frames of `live` are bound there still. -/
structure Scene.Keeps (live : FrameId → Prop) (V W : Scene) : Prop where
  size_le : V.size ≤ W.size
  outer : ∀ f < V.size, W.outer f = V.outer f
  bound : ∀ f x, live f → (V.slot f x).isSome → (W.slot f x).isSome

/-- What a host function may make of the frames that was given the values `given`. Nothing is taken
away. The frames that it has made stand inside frames of `live`, and what is bound in these is plain,
or was given, or was in one of them before. -/
structure Scene.Reworks (live : FrameId → Prop) (trusted : Nat → Prop) (given : List Value)
    (V W : Scene) : Prop where
  keeps : V.Keeps live W
  fresh : ∀ f, V.size ≤ f → f < W.size → ∀ g ∈ W.outer f, live g
  slots : ∀ f x v, live f → W.slot f x = some v →
    v.Plain trusted ∨ v ∈ given ∨ ∃ g y, live g ∧ V.slot g y = some v

namespace Scene

variable {live : FrameId → Prop} {trusted : Nat → Prop} {given : List Value} {P : Value → Prop}
  {V W X : Scene} {f : FrameId} {x : Name} {v : Value} {keep : FrameId → Name → Prop}

namespace Keeps

theorem refl (V : Scene) : V.Keeps live V := ⟨Nat.le_refl _, fun _ _ => rfl, fun _ _ _ h => h⟩

theorem trans (h : V.Keeps live W) (h' : W.Keeps live X) : V.Keeps live X where
  size_le := Nat.le_trans h.size_le h'.size_le
  outer f hf := (h'.outer f (Nat.lt_of_lt_of_le hf h.size_le)).trans (h.outer f hf)
  bound f x hf hx := h'.bound f x hf (h.bound f x hf hx)

theorem chain (h : V.Keeps live W) (hf : f < V.size) : W.chain f = V.chain f := by
  rw [Scene.chain, Scene.chain, h.outer f hf]

theorem set (h : V.Keeps live W) (f : FrameId) (x : Name) (v : Value) :
    V.Keeps live (W.set f x v) := by
  refine ⟨h.size_le, h.outer, fun g y hg hy => ?_⟩
  rw [set_slot]
  split
  · rfl
  · exact h.bound g y hg hy

end Keeps

theorem Grows.keeps {s : Store} (h : s.scene.Grows keep W) : s.scene.Keeps live W := by
  refine ⟨h.size_le, h.outer, fun f x _ hx => ?_⟩
  rwa [h.isSome f (Store.lt_of_isSome_slot hx) x]

/-- Entering a frame takes nothing away. -/
theorem keeps_enters (live : FrameId → Prop) (s : Store) (i : FrameId) (xs : List Name)
    (vs : List Value) : s.scene.Keeps live ((s.scene.push i).setAll s.scene.size xs vs) :=
  (((enters_push _ i).setAll xs vs).grows fun _ _ => True).keeps

namespace Reworks

theorem refl (V : Scene) : V.Reworks live trusted given V where
  keeps := .refl V
  fresh _ hle hlt := absurd hle (Nat.not_le.mpr hlt)
  slots f x _ hf hv := .inr (.inr ⟨f, x, hf, hv⟩)

/-- A name is bound to a value that may stand in a frame of `live`, unless it is bound elsewhere. -/
theorem set (h : V.Reworks live trusted given W) (hv : live f → v.Plain trusted ∨ v ∈ given ∨
    ∃ g y, live g ∧ V.slot g y = some v) : V.Reworks live trusted given (W.set f x v) := by
  refine ⟨h.keeps.set f x v, h.fresh, fun g y u hg hu => ?_⟩
  by_cases hset : g = f ∧ y = x
  · rw [set_slot, if_pos hset] at hu
    cases hu
    exact hv (hset.1 ▸ hg)
  · rw [set_slot, if_neg hset] at hu
    exact h.slots g y u hg hu

theorem define {s : Store} (h : V.Reworks live trusted given s.scene) (hv : live f →
    v.Plain trusted ∨ v ∈ given ∨ ∃ g y, live g ∧ V.slot g y = some v) :
    V.Reworks live trusted given (s.define f x v).scene := by
  by_cases hf : f < s.frames.size
  · rw [Store.scene_define hf]
    exact h.set hv
  · rwa [Store.define_of_le (Nat.not_lt.mp hf)]

end Reworks

/-- What holds of plain values, of those that are given and of those that the frames hold holds of
all that the frames hold afterwards. -/
theorem Holding.reworks {s s' : Store} (hs : s.scene.Holding P live)
    (h : s.scene.Reworks live trusted given s'.scene) (hplain : ∀ v, v.Plain trusted → P v)
    (hgiven : ∀ v ∈ given, P v) : s'.scene.Holding P live := by
  refine ⟨fun f hf => hs.fresh f (Nat.le_trans h.keeps.size_le hf), fun f hf g hg => ?_,
    fun f x v hf hv => ?_⟩
  · by_cases hold : f < s.scene.size
    · exact hs.chain f hf g (h.keeps.chain hold ▸ hg)
    · by_cases hnew : f < s'.scene.size
      · rcases List.mem_cons.mp hg with rfl | hg
        · exact hf
        · exact h.fresh f (Nat.not_lt.mp hold) hnew g hg
      · rw [Store.scene_chain_of_le (Nat.not_lt.mp hnew), List.mem_singleton] at hg
        exact hg ▸ hf
  · rcases h.slots f x v hf hv with hv | hv | ⟨g, y, hg, hv⟩
    · exact hplain v hv
    · exact hgiven v hv
    · exact hs.slots g y v hg hv

end Scene

/-! ### Host functions -/

namespace HostFunction

/-- If the host function returns a value, this is data or one of its arguments. -/
def Returns (host : HostFunction) : Prop :=
  ∀ args w v, (host args w).1 = .ok v → v.IsData ∨ v ∈ args

/-- The host function never reports that a name is not bound. -/
def Reticent (host : HostFunction) : Prop :=
  ∀ args w x, (host args w).1 ≠ .error (.undefinedVariable x)

/-- A host function that brings no functions of the language into the frames of `live`, if these see
no others and its arguments stand in them; nor does it return one that it was not given. -/
structure Frugal (live : FrameId → Prop) (trusted : Nat → Prop) (host : HostFunction) : Prop where
  returns : host.Returns
  frames : ∀ (args : List Value) (w : World), w.store.scene.Holding (Value.Within live) live →
    (∀ v ∈ args, v.Within live) →
    w.store.scene.Reworks live trusted args (host args w).2.store.scene

end HostFunction

/-- The frames of `live`, `env` among them, hold data and trusted host functions only, and what is
trusted is frugal. -/
structure Bare (hosts : Hosts) (live : FrameId → Prop) (trusted : Nat → Prop) (V : Scene)
    (env : FrameId) : Prop where
  lt : env < V.size
  inside : live env
  frames : V.Holding (Value.Plain trusted) live
  frugal : ∀ id, trusted id → (hosts id).Frugal live trusted

/-- Before a run, there are no functions of the language of which anything could be asked. -/
theorem Bare.holding {hosts : Hosts} {live : FrameId → Prop} {trusted : Nat → Prop} {V : Scene}
    {env : FrameId} (h : Bare hosts live trusted V env) (Q : Lambda → FrameId → Prop) :
    V.Holding (Value.Admitted trusted live Q) live :=
  h.frames.mono fun _ hv => hv.admitted

/-- A global frame that holds no functions of the language sees none. -/
theorem World.Elementary.holding {w : World} (hw : w.Elementary) :
    w.store.scene.Holding (Value.Plain fun _ => True) (w.store.scene.Domain globals) := by
  have hglobals {f : FrameId} (hf : f ∈ w.store.scene.chain globals) : f = globals := by
    rwa [hw.chain_globals, List.mem_singleton] at hf
  refine Store.holding_domain (fun f hf g hg => hglobals hf ▸ hg) fun f hf x v hv => ?_
  cases v with
  | closure lambda i => exact absurd rfl (hw.ne_closure (hglobals hf ▸ hv) lambda i)
  | int n | str s | bool b | host name id => trivial

theorem World.Elementary.bare {w : World} (hw : w.Elementary) {hosts : Hosts}
    (hhosts : ∀ id, (hosts id).Frugal (w.store.scene.Domain globals) fun _ => True) :
    Bare hosts (w.store.scene.Domain globals) (fun _ => True) w.store.scene globals := by
  refine ⟨?_, .inl List.mem_cons_self, hw.holding, fun id _ => hhosts id⟩
  rw [hw.size_scene]
  exact Nat.one_pos

/-! ### Some host functions -/

namespace HostFunction

/-- Binds a global name to a value that has nothing to do with the arguments. -/
def plant (x : Name) (v : Value) : HostFunction := fun _ w =>
  (.ok .absent, { w with store := w.store.define globals x v })

/-- Binds a global name to the first argument, be it bound before or not, and returns it. -/
def keep (x : Name) : HostFunction := fun args w =>
  (.ok (args.headD .absent), { w with store := w.store.define globals x (args.headD .absent) })

/-- Exchanges what two global names are bound to. -/
def exchange (x y : Name) : HostFunction := fun _ w =>
  let value (z : Name) : Value := (w.store.scene.slot globals z).getD .absent
  (.ok .absent, { w with store := (w.store.define globals x (value y)).define globals y (value x) })

variable {live : FrameId → Prop} {trusted : Nat → Prop}

/-- A host function that never fails is reticent. -/
theorem reticent_of_ok {host : HostFunction} (h : ∀ args w, ∃ v, (host args w).1 = .ok v) :
    host.Reticent := by
  intro args w x hx
  obtain ⟨v, hv⟩ := h args w
  rw [hv] at hx
  cases hx

theorem returns_writing (write : String → Console → Console) : (writing write).Returns := by
  intro args w v hv
  cases hv
  exact .inl trivial

theorem frugal_writing (write : String → Console → Console) :
    (writing write).Frugal live trusted :=
  ⟨returns_writing write, fun _ _ _ _ => .refl _⟩

theorem frugal_keep (x : Name) : (keep x).Frugal live trusted := by
  have hhead (args : List Value) : (args.headD .absent).IsData ∨ args.headD .absent ∈ args := by
    cases args with
    | nil => exact .inl trivial
    | cons v args => exact .inr List.mem_cons_self
  refine ⟨fun args w v hv => ?_, fun args w _ _ => ?_⟩
  · cases hv
    exact hhead args
  · refine (Scene.Reworks.refl _).define fun _ => ?_
    exact (hhead args).imp (fun h => h.plain) .inl

theorem frugal_exchange (x y : Name) : (exchange x y).Frugal live trusted := by
  refine ⟨fun args w v hv => ?_, fun args w _ _ => ?_⟩
  · cases hv
    exact .inl trivial
  · have hvalue (z : Name) (hlive : live globals) :
        ((w.store.scene.slot globals z).getD .absent).Plain trusted ∨
          (w.store.scene.slot globals z).getD .absent ∈ args ∨ ∃ g u, live g ∧
            w.store.scene.slot g u = some ((w.store.scene.slot globals z).getD .absent) := by
      cases hz : w.store.scene.slot globals z with
      | none => exact .inl trivial
      | some v => exact .inr (.inr ⟨globals, z, hlive, hz⟩)
    exact ((Scene.Reworks.refl _).define (hvalue y)).define (hvalue x)

end HostFunction

/-- An interpreter whose host functions print, bind a global name that is not bound at first, and
exchange two names that are. -/
def housekeeping : Interpreter :=
  (((printing.define "a" (.int 1)).define "b" (.int 2)).defineHost "keep" (.keep "kept")).defineHost
    "swap" (.exchange "a" "b")

section

variable {P : HostFunction → Prop} (hwriting : ∀ write, P (.writing write))
  (hkeep : P (.keep "kept")) (hexchange : P (.exchange "a" "b"))

include hwriting hkeep hexchange

theorem forall_hosts_housekeeping : ∀ f ∈ housekeeping.hosts, P f := by
  intro f hf
  rcases Array.mem_push.mp hf with hf | rfl
  · rcases Array.mem_push.mp hf with hf | rfl
    · refine Interpreter.forall_hosts_withPrelude hwriting (fun f hf => ?_) f hf
      exact absurd hf (Array.not_mem_empty f)
    · exact hkeep
  · exact hexchange

theorem host_housekeeping (id : Nat) : P (housekeeping.host id) :=
  Interpreter.host_of_forall (hwriting _) (forall_hosts_housekeeping hwriting hkeep hexchange) id

end

theorem elementary_housekeeping : housekeeping.world.Elementary := by
  have hprinting := (Interpreter.elementary_new 100 .implicit .empty).withPrelude.world
  exact (((hprinting.define "a" (v := .int 1) nofun).define "b" (v := .int 2) nofun).define
    "keep" (v := .host "keep" 2) nofun).define "swap" (v := .host "swap" 3) nofun

theorem bare_housekeeping :
    Bare housekeeping.host (housekeeping.world.store.scene.Domain globals) (fun _ => True)
      housekeeping.world.store.scene globals :=
  elementary_housekeeping.bare (host_housekeeping HostFunction.frugal_writing
    (HostFunction.frugal_keep _) (HostFunction.frugal_exchange _ _))

namespace Interpreter

/-- An interpreter that has run nothing, whose host functions return data or arguments of theirs and
never report a name; no functions of the language are bound in its global frame. -/
structure Harmless (i : Interpreter) : Prop where
  returns : ∀ f ∈ i.hosts, f.Returns
  reticent : ∀ f ∈ i.hosts, f.Reticent
  world : i.world.Elementary

theorem harmless_new (maxDepth : Nat) (convention : Convention) (console : Console) :
    (new maxDepth convention console).Harmless :=
  ⟨fun f hf => absurd hf (Array.not_mem_empty f), fun f hf => absurd hf (Array.not_mem_empty f),
    (elementary_new maxDepth convention console).world⟩

namespace Harmless

variable {i : Interpreter}

theorem define (h : i.Harmless) (x : Name) {v : Value} (hv : v.IsData) :
    (i.define x v).Harmless := by
  refine ⟨h.returns, h.reticent, h.world.define x ?_⟩
  rintro lambda f rfl
  cases hv

theorem defineHost (h : i.Harmless) (x : Name) {host : HostFunction} (hreturns : host.Returns)
    (hreticent : host.Reticent) : (i.defineHost x host).Harmless := by
  refine ⟨fun f hf => ?_, fun f hf => ?_, h.world.define x nofun⟩
  · rcases Array.mem_push.mp hf with hf | rfl
    · exact h.returns f hf
    · exact hreturns
  · rcases Array.mem_push.mp hf with hf | rfl
    · exact h.reticent f hf
    · exact hreticent

end Harmless

end Interpreter

/-- An interpreter whose only host function binds `a` to a value of its own. -/
def planting (v : Value) : Interpreter :=
  ((Interpreter.new 100 .implicit .empty).define "a" (.int 0)).defineHost "plant" (.plant "a" v)

theorem harmless_planting (v : Value) : (planting v).Harmless := by
  have hnew := Interpreter.harmless_new 100 .implicit .empty
  refine (hnew.define "a" (v := .int 0) trivial).defineHost "plant" (fun args w u hu => ?_) ?_
  · cases hu
    exact .inl trivial
  · exact HostFunction.reticent_of_ok fun args w => ⟨_, rfl⟩

end LetLambda
