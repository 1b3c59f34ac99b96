import LetLambda.Proofs.Detached
import LetLambda.Proofs.Reach
import LetLambda.Proofs.Stillness

/-!
# The transform follows the tree

Whatever a safe term gives, its transform hands the same on. `Simulates` says this of terms in
continuation-passing style: whatever the rest of the transform answers once the values of the terms
are handed on, the transform answers.

There is one lemma for each kind of term, from what its parts simulate. The whole is an induction on
the fuel of the first run (`SimulatedWith.all`).
-/

namespace LetLambda

open Symbols (Generated nameOf)
open Term (marksAll bindersAll)

variable (hosts : Hosts) (names : List Name)

/-- Wherever the values `vs` of terms with the footprint `F` are handed to `K`, something comes out
of which `post` holds. -/
def Accepts (F : Footprint) (i : FrameId) (P : Bond) (j : FrameId) (V : Scene)
    (debt : List Update) (vs : List Value) (w : World) (post : Value → World → Prop)
    (K : List Code → Code → Prop) : Prop :=
  ∀ ⦃Q k W as us own m⦄, K as m → Reached hosts names F i P j V debt vs w Q k W as us own →
    Q.Ready [m] k → Answers hosts post m k Q.world

/-- The first run takes terms from `w` to the values `vs` and `w'`, and so does the second one with
any transform of them. -/
def Simulates (F : Footprint) (i : FrameId) (w : World) (vs : List Value) (w' : World)
    (passes : (List Code → Code → Prop) → Code → Prop) : Prop :=
  ∀ ⦃P j V debt post K m⦄, Poised names F i w P j V debt → passes K m → P.Ready [m] j →
    Accepts hosts names F i P j V debt vs w' post K → Answers hosts post m j P.world

/-- Evaluating terms one after another. -/
abbrev SimulatesAll (ts : List Code) (i : FrameId) (w : World) (vs : List Value) (w' : World) :
    Prop :=
  Simulates hosts names (.of ts) i w vs w' (PassesAll ts)

/-- Evaluating terms one after another for the value of the last one. -/
abbrev SimulatesSequence (ts : List Code) (i : FrameId) (w : World) (v : Value) (w' : World) :
    Prop :=
  Simulates hosts names (.of ts) i w [v] w' fun K m => PassesSequence ts (fun a m => K [a] m) m

/-- Evaluating bindings one after another and then a body. -/
abbrev SimulatesBindings (bs : List (Binding Code)) (body : Code) (i : FrameId) (w : World)
    (v : Value) (w' : World) : Prop :=
  Simulates hosts names (.of [.declare bs body]) i w [v] w' fun K m =>
    PassesBindings bs (fun K m => Passes body K m) (fun a m => K [a] m) m

/-- Wherever a value `v` is returned to `ret`, something comes out of which `post` holds. -/
def Returns (i : FrameId) (marks : List Nat) (pure : Bool) (P : Bond) (V : Scene)
    (debt : List Update) (v : Value) (w : World) (post : Value → World → Prop) (ret : Value) :
    Prop :=
  ∀ ⦃Q W v'⦄, Passage names i marks pure P V Q W → W.updates debt = w.store.scene →
    Rel names Q v v' → Q.world.console = w.console → Replies hosts post ret [v'] Q.world

/-- The first run takes the application of `f` to `vs` from `w` to `v` and `w'`, and so does the
second one with a continuation in front of the arguments. -/
def SimulatesCall (f : Value) (vs : List Value) (w : World) (v : Value) (w' : World) : Prop :=
  ∀ ⦃P f' vs' ret post⦄, Agree names P w.store.scene → P.world.console = w.console →
    Rel names P f f' → List.Forall₂ (Rel names P) vs vs' →
    Returns hosts names 0 [] false P w.store.scene [] v w' post ret →
    Replies hosts post f' (ret :: vs') P.world

variable {hosts names} {F G : Footprint} {i j k l f : FrameId} {P Q R : Bond} {V W X : Scene}
  {w w' w₁ w₂ : World} {t u a c body : Code} {ts as : List Code} {v r ret : Value}
  {vs : List Value} {us debt : List Update} {own : Pending} {x z : Name} {label : Nat}
  {post : Value → World → Prop} {K : List Code → Code → Prop}
  {passes passes' : (List Code → Code → Prop) → Code → Prop}

/-! ### Handing a value on -/

/-- Where the value of a term is handed to a name, it is returned to what the name stands for. -/
theorem answers_jump (h : Reached hosts names F i P j V debt [v] w Q k W [a] us own)
    (hF : F.Unaware names debt) (hready : Q.Ready [.call (.var z) [a]] k) (hz : Generated z)
    (hs : P.scene.Sees j z ret)
    (hret : Returns hosts names i F.marks F.isPure P V debt v w post ret) :
    Answers hosts post (.call (.var z) [a]) k Q.world := by
  have hready : Q.Ready [a] k := hready.call.sublist (by simp)
  obtain ⟨vs', R, he, hp⟩ :=
    h.settle hF (.refl h.passage.agree) (fun _ _ _ => id) h.env h.free hready
  obtain ⟨g, hg, -, hslot⟩ := h.follows z ret hz hs
  have hlookup : Q.scene.lookup k z = some ret := by
    rw [Scene.lookup, hg]
    exact hslot
  refine answers_call (gives_var hlookup) he.gives ?_
  cases he.values with
  | cons hv hnil =>
    cases hnil
    exact hret hp (h.scene_settled hF) hv (he.console.trans h.console)

/-- A term in tail position: its value is handed to a name. -/
theorem Simulates.tail {m : Code} (h : Simulates hosts names F i w [v] w' passes)
    (hpoised : Poised names F i w P j V debt) (hF : F.Unaware names debt)
    (hm : passes (fun as m => ∃ a, as = [a] ∧ m = .call (.var z) [a]) m) (hready : P.Ready [m] j)
    (hz : Generated z) (hs : P.scene.Sees j z ret)
    (hret : Returns hosts names i F.marks F.isPure P V debt v w' post ret) :
    Answers hosts post m j P.world := by
  refine h hpoised hm hready ?_
  rintro Q k W _ us own _ ⟨a, rfl, rfl⟩ hreach hready
  exact answers_jump hreach hF hready hz hs hret

/-- A term that stands alone in a new frame is ready if it was so in a function literal before the
frame was entered. -/
theorem Entered.ready_body {xs : List Name} (he : Entered names P k z ret Q W i)
    (hA : Agree names R X) (henv : R.envs f k) (hL : R.Later P)
    (hready : R.Ready [.function label none (z :: xs) body] k) (hz : Generated z) :
    Q.Ready [body] P.scene.size := by
  have hm : (label :: marksAll [body]).Nodup := by simpa [marksAll, Term.marks] using hready.marks
  have hmem (b : Name) (hb : b ∈ bindersAll [body]) :
      b ∈ bindersAll [.function label none (z :: xs) body] := by
    have hb : b ∈ body.binders := by simpa [bindersAll] using hb
    simp [bindersAll, Term.binders, hb]
  refine he.ready [body] hm.of_cons ?_ fun b hb => ?_
  · have hb := hready.binders
    simp only [bindersAll, Term.binders, List.filter_cons, hz, decide_true, if_true,
      List.append_nil, List.cons_append] at hb
    have hsub : (z :: body.binders).Sublist
        (z :: (xs.filter (fun x => decide (Generated x)) ++ body.binders)) :=
      (List.sublist_append_right _ _).cons_cons z
    simpa [bindersAll] using hb.sublist hsub
  · have hgen := Term.generated_of_mem_bindersAll [body] hb
    exact hL.unbound (hA.envs_lt henv).2 hgen (hready.unbound b (hmem b hb))

theorem unbound_param {xs : List Name} (hA : Agree names R X) (henv : R.envs f k) (hL : R.Later P)
    (hready : R.Ready [.function label none (z :: xs) body] k) (hz : Generated z) :
    P.scene.Unbound k z := by
  refine hL.unbound (hA.envs_lt henv).2 hz (hready.unbound z ?_)
  simp [bindersAll, Term.binders, hz]

/-- A reified continuation goes on where the value is expected. -/
theorem replies_reified {v' : Value} (hpoised : Poised names F i w' P j V debt)
    (hK : Accepts hosts names F i P j V debt [v] w post K) (hbody : K [.var z] body)
    (hz : Generated z) (hA : Agree names Q W) (henv : Q.envs i k) (hF : P.Follows j Q k)
    (hready : Q.Ready [.function label none [z] body] k) (hL : Q.Later R)
    (hp : Passage names i F.marks F.isPure P V R X) (hX : X.updates debt = w.store.scene)
    (hv : Rel names R v v') (hconsole : R.world.console = w.console) :
    Replies hosts post (.closure ⟨label, none, [z], body⟩ k) [v'] R.world := by
  have he : Entered names R k z v' (R.enterAside i k z v') X i :=
    enter_aside hp.agree (hL.envs henv) hz (unbound_param hA henv hL hready hz) v'
  have hF' : P.Follows j (R.enterAside i k z v') R.scene.size :=
    hF.trans ((hL.follows hA henv).trans he.follows)
  have hanswer := hK hbody (.returned hpoised.agree hpoised.owed hp hX hconsole hv hz he hF')
    (he.ready_body hA henv hL hready hz)
  exact replies_closure hanswer

/-! ### Simple terms -/

theorem simulates_nil : SimulatesAll hosts names [] i w [] w := by
  intro P j V debt post K m hpoised hm hready hK
  exact hK hm (.here hpoised nofun .nil) hready

/-- A term in whose place a constant is handed on. -/
theorem simulates_constant (hpasses : ∀ {K m}, PassesAll [t] K m → K [a] m)
    (hr : a.erase.reads = []) (hmarks : a.marks = []) (ha : ∀ k w, Gives hosts a k w v w)
    (hv : ∀ Q, Rel names Q v v) : SimulatesAll hosts names [t] i w [v] w := by
  intro P j V debt post K m hpoised hm hready hK
  refine hK (hpasses hm) (.here hpoised (fun b hb => ?_) (.constant hmarks ha hv)) hready
  rw [List.mem_singleton.mp hb, hr]
  exact List.nil_subset _

theorem simulates_bool (b : Bool) : SimulatesAll hosts names [.bool b] i w [.bool b] w :=
  simulates_constant id rfl rfl (fun _ _ => gives_bool b) fun _ => .bool b

theorem simulates_var (hsafe : Safe names (.var x)) (hv : w.store.lookup? i x = some v) :
    SimulatesAll hosts names [.var x] i w [v] w := by
  intro P j V debt post K m hpoised hm hready hK
  refine hK hm (.here hpoised (fun a ha => Footprint.reads_subset_of ha) (.var ?_ ?_ ?_)) hready
  · exact hsafe.self.ordinary x (List.mem_singleton_self x)
  · simpa using (hpoised.agree.envs_lt hpoised.env).1
  · rw [hpoised.scene, Store.scene_lookup, hv]

/-- A function literal. A name of its own is bound in a new frame. -/
theorem simulates_function {name? : Option Name} {params : List Name}
    (hsafe : Safe names (Term.function label name? params body : Code).erase)
    (hmarks : (Term.function label name? params body : Code).marks.Nodup) :
    SimulatesAll hosts names [.function label name? params body] i w
      [(Direct.close w ⟨label, name?, params, body⟩ i).1]
      (Direct.close w ⟨label, name?, params, body⟩ i).2 := by
  intro P j V debt post K m hpoised hm hready hK
  obtain ⟨label', n, body', hbody, hm⟩ := hm
  have hlit : Counterpart names ⟨label, name?, params, body⟩
      ⟨label', name?, nameOf "K" n :: params, body'⟩ (nameOf "K" n) :=
    { name := rfl
      generated := Symbols.generated_nameOf _ _
      params := rfl
      ordinary := fun x hx => hsafe.self.ordinary x (List.mem_append_right _ hx)
      passes := hbody
      safe := hsafe.function
      marks := hmarks.of_cons }
  cases name? with
  | none => exact hK hm (.anonymous hpoised hlit rfl) hready
  | some x =>
    have hx : ¬ Generated x := hsafe.self.ordinary x List.mem_cons_self
    have hsize : w.store.scene.size = V.size := by rw [← hpoised.scene, Scene.updates_size]
    have hclose : Direct.close w ⟨label, some x, params, body⟩ i =
        (.closure ⟨label, some x, params, body⟩ V.size,
          (Direct.enter w i fun store frame =>
            store.defineSelf frame ⟨label, some x, params, body⟩).2) := by
      rw [← hsize]
      rfl
    rw [hclose] at hK
    refine hK hm (.named (w := w) hpoised hlit rfl hx ?_ rfl) hready
    rw [← hsize]
    exact Direct.enter_defineSelf rfl

/-- The terms after one that assigns are pure, and no conditional and no `let` of them can tell. -/
theorem idle_of_assigns (ha : t.erase.assigns = true)
    (hapart : ∀ u ∈ ts, Undisturbed names t.erase u.erase = true ∧
      Settled names t.erase u.erase = true) :
    (Footprint.of ts).isPure = true ∧ (Footprint.of ts).steady names = true := by
  refine ⟨List.all_eq_true.mpr fun u hu => ?_, List.all_eq_true.mpr fun s hs => ?_⟩
  · have h := (hapart u hu).1
    simpa [Undisturbed, Term.quiet, ha] using h
  · obtain ⟨u, hu, hs⟩ := List.mem_flatMap.mp hs
    have h := (hapart u hu).2
    simp only [Settled, ha, Bool.not_true, Bool.false_or] at h
    exact List.all_eq_true.mp h s hs

/-- A term is disturbed by none of the terms after it: they are pure, or it is quiet. -/
theorem pure_or_quiet (hapart : ∀ u ∈ ts, Undisturbed names t.erase u.erase = true ∧
    Settled names t.erase u.erase = true) :
    (Footprint.of ts).isPure = true ∨ t.erase.quiet names = true := by
  by_cases hq : t.erase.quiet names = true
  · exact .inr hq
  · refine .inl (List.all_eq_true.mpr fun u hu => ?_)
    exact (Bool.or_eq_true_iff.mp (hapart u hu).1).resolve_right hq

/-- One term after another. -/
theorem simulates_cons (ht : SimulatesAll hosts names [t] i w [v] w₁)
    (hts : SimulatesAll hosts names ts i w₁ vs w₂)
    (hmarks : (marksAll (t :: ts)).Nodup)
    (hapart : ∀ u ∈ ts, Undisturbed names t.erase u.erase = true ∧
      Settled names t.erase u.erase = true) :
    SimulatesAll hosts names (t :: ts) i w (v :: vs) w₂ := by
  intro P j V debt post K m hpoised hm hready hK
  have hm : PassesAll [t] (fun as m => ∃ a, as = [a] ∧
      PassesAll ts (fun as m => K (a :: as) m) m) m :=
    Passes.mono t (fun a m hm => ⟨a, rfl, hm⟩) hm
  refine ht (hpoised.le (Footprint.head_le t ts)) hm hready ?_
  rintro Q k W _ us own m₁ ⟨a, rfl, hm₁⟩ hreach hready₁
  have hle := Footprint.tail_le t ts
  have hidle : debt ++ us = [] ∨ ((Footprint.of ts).isPure = true ∧
      (Footprint.of ts).steady names = true) := by
    rcases hpoised.idle with rfl | ⟨hp, hs⟩
    · by_cases ha : t.erase.assigns = true
      · exact .inr (idle_of_assigns ha hapart)
      · refine .inl (hreach.quiet ?_)
        simpa [Footprint.assigns, Footprint.of, Term.assigns] using ha
    · exact .inr ⟨hle.isPure hp, hle.steady hs⟩
  refine hts (hreach.poised hpoised (hpoised.le hle).fresh hmarks hidle) hm₁ hready₁ ?_
  intro R l X as us' own' m₂ hm₂ hreach₂ hready₂
  have hi := (hpoised.agree.env_lt hpoised.env).1
  exact hK hm₂ (.cons hi hmarks (pure_or_quiet hapart) hreach hreach₂) hready₂

theorem simulates_negate (h : SimulatesAll hosts names [t] i w [v] w₁) :
    SimulatesAll hosts names [.negate t] i w [.bool (!v.isTruthy)] w₁ := by
  intro P j V debt post K m hpoised hm hready hK
  have hle : (Footprint.of [t]).Le (.of [.negate t]) :=
    Footprint.le_of_parts (by simp [marksAll, Term.marks])
      (by simp [Term.erase, Term.surface, Term.parts]) (by simp [Term.erase, Term.isPure])
  have hm : PassesAll [t] (fun as m => ∃ a, as = [a] ∧ K [.negate a] m) m :=
    Passes.mono t (fun a m hm => ⟨a, rfl, hm⟩) hm
  refine h (hpoised.le hle) hm hready ?_
  rintro Q k W _ us own m₁ ⟨a, rfl, hm₁⟩ hreach hready₁
  have hr : (Term.negate a).erase.reads = a.erase.reads := rfl
  refine hK hm₁ ((hreach.le hle).map ?_ ?_ (hreach.waits.map ?_ ?_ ?_ ?_)) hready₁
  · simp [Term.erase, Term.isPure]
  · simp [hr]
  · simp [marksAll, Term.marks]
  · simp [bindersAll, Term.binders]
  · simp [hr]
  · intro Q X k w vs' w' hA hvs hgives
    obtain ⟨v', rfl, hv'⟩ := givesAll_singleton.mp hgives
    refine ⟨.bool (!v'.isTruthy), gives_negate hv', ?_⟩
    cases hvs with
    | cons hv _ =>
      rw [hv.isTruthy]
      exact .bool _

theorem simulates_binary {op : String} {left right : Code} {a b : Value}
    (h : SimulatesAll hosts names [left, right] i w [a, b] w₁)
    (hop : Value.operateSymbol op a b = .ok v) :
    SimulatesAll hosts names [.binary op left right] i w [v] w₁ := by
  intro P j V debt post K m hpoised hm hready hK
  have hle : (Footprint.of [left, right]).Le (.of [.binary op left right]) :=
    Footprint.le_of_parts (by simp [marksAll, Term.marks])
      (by simp [Term.erase, Term.surface, Term.parts]) (by simp [Term.erase, Term.isPure])
  have hm : PassesAll [left, right] (fun as m => ∃ l r, as = [l, r] ∧ K [.binary op l r] m) m :=
    Passes.mono left (fun l m hl => Passes.mono right (fun r m hm => ⟨l, r, rfl, hm⟩) hl) hm
  refine h (hpoised.le hle) hm hready ?_
  rintro Q k W _ us own m₁ ⟨l, r, rfl, hm₁⟩ hreach hready₁
  have hr : (Term.binary op l r).erase.reads = l.erase.reads ++ r.erase.reads :=
    List.filterMap_append
  refine hK hm₁ ((hreach.le hle).map ?_ ?_ (hreach.waits.map ?_ ?_ ?_ ?_)) hready₁
  · simp [Term.erase, Term.isPure]
  · simp [hr]
  · simp [marksAll, Term.marks]
  · simp [bindersAll, Term.binders]
  · simp [hr]
  · rintro Q X k w _ w' hA (_ | ⟨ha, _ | ⟨hb, _⟩⟩) ⟨a', _, w₁, ⟨⟩, hl, b', _, w₂, ⟨⟩, hr, -, rfl⟩
    obtain ⟨v', hop', hv⟩ := Rel.operateSymbol hA ha hb hop
    exact ⟨v', gives_binary hl hr hop', hv⟩

theorem simulates_assign {store : Store} (h : SimulatesAll hosts names [t] i w [v] w₁)
    (hsafe : Safe names (Term.assign (.var x) t : Code).erase)
    (hset : w₁.store.set? i x v = some store) :
    SimulatesAll hosts names [.assign (.var x) t] i w [v] { w₁ with store } := by
  intro P j V debt post K m hpoised hm hready hK
  have hle : (Footprint.of [t]).Le (.of [.assign (.var x) t]) :=
    Footprint.le_of_parts (by simp [marksAll, Term.marks])
      (by simp [Term.erase, Term.surface, Term.parts]) (by simp [Term.erase, Term.isPure])
  have hm : PassesAll [t] (fun as m => ∃ a, as = [a] ∧ K [.assign (.var x) a] m) m :=
    Passes.mono t (fun a m hm => ⟨a, rfl, hm⟩) hm
  refine h (hpoised.le hle) hm hready ?_
  rintro Q k W _ us own m₁ ⟨a, rfl, hm₁⟩ hreach hready₁
  obtain ⟨f, hf, hscene⟩ := Store.resolve_of_set? hset
  have hx : ¬ Generated x := hsafe (.var x) (by simp [Term.erase, Term.subterms, Term.parts])
    |>.ordinary x (List.mem_singleton_self x)
  have hreach := (hreach.le hle).assign { w₁ with store } rfl
    (hsafe.self.assigned x rfl) hx
    (Footprint.reads_subset_of (List.mem_singleton_self _) List.mem_cons_self) hf hscene rfl
  exact hK hm₁ hreach hready₁

/-! ### Calls -/

theorem Footprint.le_call (callee : Code) (args : List Code) :
    (Footprint.of (callee :: args)).Le (.of [.call callee args]) := by
  refine le_of_parts (by simp [marksAll, Term.marks]) (fun u hu s hs => ?_) nofun
  refine List.mem_cons_of_mem _ (List.mem_append.mpr ?_)
  rcases List.mem_cons.mp hu with rfl | hu
  · exact .inl hs
  · refine .inr (Term.mem_partsAll.mpr ⟨u.erase, ?_, hs⟩)
    rw [Term.eraseAll_eq_map]
    exact List.mem_map_of_mem hu

/-- Nothing is owed before a term that is not pure. -/
theorem Poised.debt_eq_nil (h : Poised names (.of [t]) i w P j V debt)
    (ht : ¬ t.erase.isPure = true) : debt = [] := by
  refine h.idle.resolve_right fun ⟨hp, _⟩ => ht ?_
  exact List.all_eq_true.mp hp t (List.mem_singleton_self t)

theorem simulates_call {callee : Code} {args : List Code} {f : Value}
    (h : SimulatesAll hosts names (callee :: args) i w (f :: vs) w₁)
    (hcall : SimulatesCall hosts names f vs w₁ v w₂) :
    SimulatesAll hosts names [.call callee args] i w [v] w₂ := by
  intro P j V debt post K m hpoised hm hready hK
  have hle := Footprint.le_call callee args
  cases hpoised.debt_eq_nil Bool.false_ne_true
  have hm : PassesAll (callee :: args) (fun as m => ∃ a as' ret, as = a :: as' ∧
      Receiver.Reified (fun r m => K [r] m) ret ∧ m = .call a (ret :: as')) m :=
    Passes.mono callee (fun a m hm => PassesAll.mono args
      (fun as' m ⟨ret, hret, hm⟩ => ⟨a, as', ret, rfl, hret, hm⟩) hm) hm
  refine h (hpoised.le hle) hm hready ?_
  rintro Q k W _ us own m₁ ⟨a, as, _, rfl, ⟨label, n, body, rfl, hbody⟩, rfl⟩ hreach hready₁
  have hready_as : Q.Ready (a :: as) k := hready₁.call.sublist (by simp)
  have hready_ret : Q.Ready [.function label none [nameOf "R" n] body] k :=
    hready₁.call.sublist (by simp)
  obtain ⟨vs', R, he, hp⟩ := hreach.settle (.inl rfl) (.refl hreach.passage.agree)
    (fun _ _ _ => id) hreach.env hreach.free hready_as
  have hW : W.updates us = w₁.store.scene := hreach.scene_settled (.inl rfl)
  rw [hW] at hp
  obtain ⟨f', vs', w', rfl, hf', hvs'⟩ := he.gives
  have hret : Gives hosts (.function label none [nameOf "R" n] body) k w'
      (.closure ⟨label, none, [nameOf "R" n], body⟩ k) w' := gives_function _ _ _ _
  refine answers_call hf' ⟨_, vs', w', rfl, hret, hvs'⟩ ?_
  cases he.values with
  | cons hf hvs =>
    refine hcall hp.agree (he.console.trans hreach.console) hf hvs
      fun S X v' hp' hX hv hconsole => ?_
    refine replies_reified hpoised hK hbody (Symbols.generated_nameOf _ _) hreach.passage.agree
      hreach.env hreach.follows hready_ret (he.later.trans hp'.later) ?_ hX hv hconsole
    exact (hp.widen hle.marks hle.isPure).trans_call hp' nofun

/-! ### Sequences -/

theorem simulates_last (h : SimulatesAll hosts names [t] i w [v] w₁) :
    SimulatesSequence hosts names [t] i w v w₁ := by
  intro P j V debt post K m hpoised hm hready hK
  exact h hpoised hm hready hK

/-- A pure term is left out. What the first run makes of it is of no importance. -/
theorem simulates_sequence_pure (hp : t.erase.isPure = true) (hstill : w.Still w₁)
    (h : SimulatesSequence hosts names (u :: ts) i w₁ v w₂) :
    SimulatesSequence hosts names (t :: u :: ts) i w v w₂ := by
  intro P j V debt post K m hpoised hm hready hK
  rw [PassesSequence, if_pos hp] at hm
  have hle := Footprint.tail_le t (u :: ts)
  have hgrows : (V.updates debt).Grows (fun _ _ => True) w₁.store.scene :=
    hpoised.scene ▸ hstill.grows
  have hpass : Passage names i (Footprint.of (t :: u :: ts)).marks
      (Footprint.of (t :: u :: ts)).isPure P V P (V.graft w₁.store.scene) :=
    .of_grow hpoised.agree (Scene.grows_graft hgrows)
      (Scene.blank_graft (Store.scene_blank _) (by simpa using hgrows.size_le))
  have hpoised₁ : Poised names (.of (u :: ts)) i w₁ P j (V.graft w₁.store.scene) debt :=
    { agree := hpass.agree
      env := hpoised.env
      scene := by
        refine Scene.updates_graft hgrows fun u hu => ?_
        obtain ⟨-, ⟨g, hg⟩, -⟩ := hpoised.owed u hu
        exact (hpoised.agree.frames_lt hg).1
      console := hpoised.console.trans hstill.console.symm
      fresh := (hpoised.le hle).fresh
      owed := hpoised.owed.passage hpoised.agree hpass
      idle := (hpoised.le hle).idle }
  refine h hpoised₁ hm hready ?_
  intro Q k W as us own m₁ hm₁ hreach hready₁
  exact hK hm₁ ((hreach.le hle).after hpass fun _ _ _ => id) hready₁

/-- A term that is not pure, whose value is dropped if what is left of it is pure. -/
theorem simulates_sequence_cons {a : Value} (hp : ¬ t.erase.isPure = true)
    (ht : SimulatesAll hosts names [t] i w [a] w₁)
    (h : SimulatesSequence hosts names (u :: ts) i w₁ v w₂)
    (hmarks : (marksAll (t :: u :: ts)).Nodup) :
    SimulatesSequence hosts names (t :: u :: ts) i w v w₂ := by
  intro P j V debt post K m hpoised hm hready hK
  rw [PassesSequence, if_neg hp] at hm
  have hle := Footprint.head_le t (u :: ts)
  have hle' := Footprint.tail_le t (u :: ts)
  have hfresh := (hpoised.le hle').fresh
  cases (hpoised.le hle).debt_eq_nil hp
  have hm : PassesAll [t] (fun as m => ∃ a rest, as = [a] ∧
      PassesSequence (u :: ts) (fun a m => K [a] m) rest ∧
      m = if a.erase.isPure then rest else .seq [a, rest]) m :=
    Passes.mono t (fun a m ⟨rest, hrest, hm⟩ => ⟨a, rest, rfl, hrest, hm⟩) hm
  refine ht (hpoised.le hle) hm hready ?_
  rintro Q k W _ us own _ ⟨r, rest, rfl, hrest, rfl⟩ hreach hready₁
  by_cases hr : r.erase.isPure = true
  · rw [if_pos hr] at hready₁ ⊢
    cases hreach.pure (List.forall_mem_singleton.mpr hr)
    refine h (hreach.poised hpoised hfresh hmarks (.inl rfl)) hrest hready₁ ?_
    intro R l X as us own m₂ hm₂ hreach₂ hready₂
    refine hK hm₂ ((hreach₂.le hle').after ?_ hreach.follows) hready₂
    exact hreach.passage.widen hle.marks hle.isPure
  · rw [if_neg hr] at hready₁ ⊢
    have hready₁ : Q.Ready [r, rest] k := hready₁.seq
    obtain ⟨vs', R, he, hpass⟩ := hreach.settle (.inl rfl) (.refl hreach.passage.agree)
      (fun _ _ _ => id) hreach.env hreach.free (hready₁.sublist (by simp))
    obtain ⟨r', rfl, hr'⟩ := givesAll_singleton.mp he.gives
    have hready₂ : R.Ready [rest] k :=
      (hready₁.sublist (by simp)).later hreach.passage.agree hreach.env he.later he.marked
        (Term.disjoint_marksAll hready₁.marks)
    have hpoised₂ : Poised names (.of (u :: ts)) i w₁ R k (W.updates us) [] :=
      hpoised.of_passage hpass (hreach.scene_settled (.inl rfl)) (he.later.envs hreach.env)
        (he.console.trans hreach.console) hfresh (Term.disjoint_marksAll hmarks) (.inl rfl)
    refine answers_seq hr' (h hpoised₂ hrest hready₂ ?_)
    intro S l X as us own m₂ hm₂ hreach₂ hready₃
    refine hK hm₂ ((hreach₂.le hle').after (hpass.widen hle.marks hle.isPure) ?_) hready₃
    exact hreach.follows.trans (he.later.follows hreach.passage.agree hreach.env)

theorem simulates_seq (h : SimulatesSequence hosts names ts i w v w₁) :
    SimulatesAll hosts names [.seq ts] i w [v] w₁ := by
  intro P j V debt post K m hpoised hm hready hK
  have hle : (Footprint.of ts).Le (.of [.seq ts]) := by
    refine Footprint.le_of_parts (by simp [Term.marks]) (fun u hu s hs => ?_) ?_
    · refine List.mem_cons_of_mem _ (Term.mem_partsAll.mpr ⟨u.erase, ?_, hs⟩)
      rw [Term.eraseAll_eq_map]
      exact List.mem_map_of_mem hu
    · intro hp u hu
      rw [Term.erase, Term.isPure, Term.eraseAll_eq_map, Term.allPure_eq_all] at hp
      exact List.all_eq_true.mp hp u.erase (List.mem_map_of_mem hu)
  refine h (hpoised.le hle) hm hready ?_
  intro Q k W as us own m₁ hm₁ hreach hready₁
  exact hK hm₁ (hreach.le hle) hready₁

/-! ### Conditionals -/

/-- A conditional of which the first run takes `branch`. The arm of the second run is evaluated in
a frame that binds what comes after the conditional. -/
theorem simulates_branch {test consequent alternative branch : Code} {a : Value}
    (htest : SimulatesAll hosts names [test] i w [a] w₁)
    (hbranch : SimulatesAll hosts names [branch] i w₁ [v] w₂)
    (hb : branch = if a.isTruthy then consequent else alternative)
    (hle : (Footprint.of [test]).Part (.of [t])) (hle' : (Footprint.of [branch]).Part (.of [t]))
    (hmarks : (marksAll [test, branch]).Nodup) (ht : t.erase.isBlock = true)
    (hpasses : ∀ {K : List Code → Code → Prop} {m}, PassesAll [t] K m →
      Passes test (fun v m => ∃ n rest c alt, Receiver.Reified (fun r m => K [r] m) rest ∧
        Passes consequent (.jump (nameOf "I" n)) c ∧ Passes alternative (.jump (nameOf "I" n)) alt ∧
        Receiver.Branches (nameOf "I" n) v c alt rest m) m) :
    SimulatesAll hosts names [t] i w [v] w₂ := by
  intro P j V debt post K m hpoised hm hready hK
  have hun := Footprint.unaware_of_block ht hpoised.idle
  have hm : PassesAll [test] (fun as m => ∃ r n rest c alt, as = [r] ∧
      Receiver.Reified (fun r m => K [r] m) rest ∧ Passes consequent (.jump (nameOf "I" n)) c ∧
      Passes alternative (.jump (nameOf "I" n)) alt ∧
      Receiver.Branches (nameOf "I" n) r c alt rest m) m :=
    Passes.mono test (fun r m ⟨n, rest, c, alt, h⟩ => ⟨r, n, rest, c, alt, rfl, h⟩) (hpasses hm)
  refine htest (hpoised.part hun hle) hm hready ?_
  rintro Q k W _ us own _ ⟨r, n, _, c, alt, rfl, ⟨label', n', body, rfl, hbody⟩, hc, halt, label,
    rfl⟩ hreach hready₁
  have hA := hreach.passage.agree
  have hI : Generated (nameOf "I" n) := Symbols.generated_nameOf _ _
  have hready_fun : Q.Ready [.function label none [nameOf "I" n] (.conditional r c (some alt))] k :=
    hready₁.call.sublist (by simp)
  have hready_ret : Q.Ready [.function label' none [nameOf "R" n'] body] k :=
    hready₁.call.sublist (by simp)
  obtain ⟨ret, hret⟩ : ∃ ret, ret = Value.closure ⟨label', none, [nameOf "R" n'], body⟩ k := ⟨_, rfl⟩
  have he : Entered names Q k (nameOf "I" n) ret (Q.enterAside i k (nameOf "I" n) ret) W i :=
    enter_aside hA hreach.env hI (unbound_param hA hreach.env (.refl Q) hready_fun hI) ret
  have hready₂ : (Q.enterAside i k (nameOf "I" n) ret).Ready [r, c, alt] Q.scene.size :=
    (he.ready_body hA hreach.env (.refl Q) hready_fun hI).conditional
  have hgives : Gives hosts (.function label' none [nameOf "R" n'] body) k Q.world ret Q.world :=
    hret ▸ gives_function _ _ _ _
  refine answers_call (gives_function _ _ _ _) ⟨ret, [], Q.world, rfl, hgives, rfl, rfl⟩ ?_
  refine replies_closure ?_
  change Answers hosts post (.conditional r c (some alt)) Q.scene.size
    (Q.enterAside i k (nameOf "I" n) ret).world
  obtain ⟨vs', R, hev, hp⟩ := hreach.settle (hun.part hle) (passage_aside he) he.follows he.env
    ⟨hreach.free.funs, hreach.free.frames⟩ (hready₂.sublist (by simp))
  obtain ⟨a', rfl, ha'⟩ := givesAll_singleton.mp hev.gives
  have hready₃ : R.Ready [c, alt] Q.scene.size :=
    (hready₂.sublist (by simp)).later he.agree he.env hev.later hev.marked
      (Term.disjoint_marksAll hready₂.marks)
  have hrel : Rel names R a a' := by
    cases hev.values with
    | cons h _ => exact h
  refine answers_conditional ha' ?_
  rw [hrel.isTruthy]
  have hm₂ : Passes branch (.jump (nameOf "I" n)) (if a.isTruthy then c else alt) := by
    rw [hb]
    split
    · exact hc
    · exact halt
  have hready₄ : R.Ready [if a.isTruthy then c else alt] Q.scene.size := by
    split
    · exact hready₃.sublist (by simp)
    · exact hready₃.sublist (by simp)
  have hpoised₂ : Poised names (.of [branch]) i w₁ R Q.scene.size (W.updates us) debt :=
    hpoised.of_passage hp (hreach.scene_settled (hun.part hle)) (hev.later.envs he.env)
      (hev.console.trans hreach.console) (hpoised.part hun hle').fresh
      (Term.disjoint_marksAll hmarks) (hun.part hle').idle
  refine hbranch.tail hpoised₂ (hun.part hle')
    (Passes.mono branch (fun b m hm => ⟨b, rfl, hm⟩) hm₂) hready₄ hI
    (hev.later.sees (he.agree.envs_lt he.env).2 hI he.sees) fun S X v' hp' hX hv hconsole => ?_
  subst hret
  refine replies_reified hpoised hK hbody (Symbols.generated_nameOf _ _) hA hreach.env
    hreach.follows hready_ret (he.later.trans (hev.later.trans hp'.later)) ?_ hX hv hconsole
  exact (hp.widen hle.marks hle.isPure).trans (hp'.widen hle'.marks hle'.isPure)

/-! ### Bindings and applications

Both runs enter a frame, and the value of what is evaluated there is handed to a name that only the
frame of the second run binds. -/

/-- Nothing has been made in a frame that has just been entered. -/
theorem Entered.poised {vs vs' : List Value} {xs : List Name}
    (he : Entered names P k z ret (P.enterPair V.size k z ret xs vs')
      ((V.push i).setAll V.size xs vs) V.size)
    (hA : Agree names P V) (howed : Owed names P V debt)
    (hscene : ((V.push i).setAll V.size xs vs).updates debt = w.store.scene)
    (hconsole : P.world.console = w.console)
    (hidle : debt = [] ∨ (F.isPure = true ∧ F.steady names = true)) :
    Poised names F V.size w (P.enterPair V.size k z ret xs vs') P.scene.size
      ((V.push i).setAll V.size xs vs) debt where
  agree := he.agree
  env := he.env
  scene := hscene
  console := hconsole
  fresh := by
    rintro l - q (e | ⟨-, -, e⟩)
    · exact Nat.lt_irrefl _ (hA.funs_lt e).1
    · exact e
  owed := by
    have hp : Passage names i [] false P V (P.enterPair V.size k z ret xs vs') _ := passage_pair he
    exact howed.passage hA hp
  idle := hidle

/-- A binding, and the bindings after it in a frame that binds its name. -/
theorem simulates_binding {a : Value} {b : Binding Code} {bs : List (Binding Code)}
    (ht : SimulatesAll hosts names [t] i w [a] w₁)
    (hbs : SimulatesBindings hosts names bs body w₁.store.scene.size
      (Direct.enter w₁ i fun store frame => store.define frame x a).2 v w₂)
    (hx : ¬ Generated x) (hle : (Footprint.of [t]).Part (.of [.declare (b :: bs) body]))
    (hle' : (Footprint.of [.declare bs body]).Part (.of [.declare (b :: bs) body]))
    (hpasses : ∀ {K : Receiver Nat} {m},
      PassesBindings (b :: bs) (fun K m => Passes body K m) K m →
      Passes t (fun r m => ∃ i n inner after,
        PassesBindings bs (fun K m => Passes body K m) (.jump (nameOf "K" n)) inner ∧
        Receiver.Reified K after ∧
        m = .call (.function i none [nameOf "K" n, x] inner) [after, r]) m) :
    SimulatesBindings hosts names (b :: bs) body i w v w₂ := by
  intro P j V debt post K m hpoised hm hready hK
  have hun : (Footprint.of [.declare (b :: bs) body]).Unaware names debt :=
    Footprint.unaware_of_block rfl hpoised.idle
  have hm : PassesAll [t] (fun as m => ∃ r l n inner after, as = [r] ∧
      PassesBindings bs (fun K m => Passes body K m) (.jump (nameOf "K" n)) inner ∧
      Receiver.Reified (fun a m => K [a] m) after ∧
      m = .call (.function l none [nameOf "K" n, x] inner) [after, r]) m :=
    Passes.mono t (fun r m ⟨l, n, inner, after, h⟩ => ⟨r, l, n, inner, after, rfl, h⟩) (hpasses hm)
  refine ht (hpoised.part hun hle) hm hready ?_
  rintro Q k W _ us own _ ⟨r, label, n, inner, _, rfl, hinner, ⟨label', n', after, rfl, hafter⟩,
    rfl⟩ hreach hready₁
  have hA := hreach.passage.agree
  have hz : Generated (nameOf "K" n) := Symbols.generated_nameOf _ _
  have hready_fun : Q.Ready [.function label none [nameOf "K" n, x] inner] k :=
    hready₁.call.sublist (by simp)
  have hready_ret : Q.Ready [.function label' none [nameOf "R" n'] after] k :=
    hready₁.call.sublist (by simp)
  obtain ⟨ret, hret⟩ : ∃ ret, ret = Value.closure ⟨label', none, [nameOf "R" n'], after⟩ k :=
    ⟨_, rfl⟩
  have hgives : Gives hosts (.function label' none [nameOf "R" n'] after) k Q.world ret Q.world :=
    hret ▸ gives_function _ _ _ _
  obtain ⟨vs', R, hev, hp⟩ := hreach.settle (hun.part hle) (.refl hA) (fun _ _ _ => id) hreach.env
    hreach.free (hready₁.call.sublist (by simp))
  have hscene := hreach.scene_settled (hun.part hle)
  obtain ⟨X, hX⟩ : ∃ X, X = W.updates us := ⟨_, rfl⟩
  rw [← hX] at hp hscene
  have howed : Owed names R X debt := hpoised.owed.passage hpoised.agree hp
  obtain ⟨a', rfl, ha'⟩ := givesAll_singleton.mp hev.gives
  refine answers_call (gives_function _ _ _ _)
    ⟨ret, [a'], Q.world, rfl, hgives, a', [], R.world, rfl, ha', rfl, rfl⟩ (replies_closure ?_)
  change Answers hosts post inner R.scene.size
    (R.enterPair X.size k (nameOf "K" n) ret [x] [a']).world
  have he := enter_pair hp.agree (hev.later.envs hreach.env) hz
    (unbound_param hA hreach.env hev.later hready_fun hz) ret
    (List.forall_mem_singleton.mpr hx) hev.values
  have hsize : w₁.store.scene.size = X.size := by rw [← hscene, Scene.updates_size]
  have hscene' : ((X.push i).setAll X.size [x] [a]).updates debt =
      (Direct.enter w₁ i fun store frame => store.define frame x a).2.store.scene := by
    rw [Direct.enter_define, hsize, ← hscene, ← Scene.updates_push]
    refine Scene.updates_set fun u hu => ?_
    obtain ⟨-, ⟨g, hg⟩, -⟩ := howed u hu
    exact Nat.ne_of_lt (hp.agree.frames_lt hg).1
  rw [hsize] at hbs
  refine hbs.tail (he.poised hp.agree howed hscene' (hev.console.trans hreach.console)
    (hun.part hle').idle) (hun.part hle') ?_ (he.ready_body hA hreach.env hev.later hready_fun hz)
    hz he.sees fun S Y v' hp' hY hv hconsole => ?_
  · have hbody (K K' : Receiver Nat) (h : ∀ v m, K v m → K' v m) (m : Code)
        (hm : Passes body K m) : Passes body K' m := Passes.mono body h hm
    exact PassesBindings.mono bs hbody (fun r m hm => ⟨r, rfl, hm⟩) hinner
  · subst hret
    refine replies_reified hpoised hK hafter (Symbols.generated_nameOf _ _) hA hreach.env
      hreach.follows hready_ret (hev.later.trans (he.later.trans hp'.later)) ?_ hY hv hconsole
    exact ((hp.widen hle.marks hle.isPure).trans (passage_pair he)).trans_inner hp'
      ⟨hp.grows.size_le, Nat.lt_succ_self _⟩ hle'.isPure

/-- After the last binding comes the body. -/
theorem simulates_body (h : SimulatesAll hosts names [body] i w [v] w₁) :
    SimulatesBindings hosts names [] body i w v w₁ := by
  intro P j V debt post K m hpoised hm hready hK
  have hle : (Footprint.of [body]).Le (.of [.declare [] body]) :=
    Footprint.le_of_parts (by simp [marksAll, Term.marks, Term.marksBindings])
      (by simp [Term.erase, Term.eraseBindings, Term.surface, Term.parts, Term.partsBindings])
      (by simp [Term.erase, Term.eraseBindings, Term.isPure, Term.bindingsPure])
  refine h (hpoised.le hle) hm hready ?_
  intro Q k W as us own m₁ hm₁ hreach hready₁
  exact hK hm₁ (hreach.le hle) hready₁

/-- A function of the language, whose body is evaluated in a frame that binds its parameters. -/
theorem simulatesCall_closure {lam : Lambda}
    (hbody : Safe names lam.body.erase → lam.body.marks.Nodup →
      SimulatesAll hosts names [lam.body] w.store.scene.size
        (Direct.enter w i fun store frame => store.defineAll frame lam.params vs).2 [v] w₁) :
    SimulatesCall hosts names (.closure lam i) vs w v w₁ := by
  intro P f' vs' ret post hA hconsole hf hvs hret
  cases hf with
  | @closure _ lam' _ j z hlit hfun hfree =>
    have he := enter_pair hA (hA.funs_envs hfun) hlit.generated
      (hfree z List.mem_cons_self) ret hlit.ordinary hvs
    refine replies_closure ?_
    rw [hlit.params]
    change Answers hosts post lam'.body P.scene.size
      (P.enterPair w.store.scene.size j z ret lam.params vs').world
    have hready : (P.enterPair w.store.scene.size j z ret lam.params vs').Ready [lam'.body]
        P.scene.size := by
      refine he.ready [lam'.body] ?_ ?_ fun b hb => hfree b (List.mem_cons_of_mem z ?_)
      · simpa [marksAll] using hlit.marks'
      · simpa [bindersAll] using hlit.binders
      · simpa [bindersAll] using hb
    have hscene : (Direct.enter w i fun store frame =>
        store.defineAll frame lam.params vs).2.store.scene = _ := Direct.enter_defineAll _ _
    have howed : Owed names P w.store.scene [] := nofun
    refine (hbody hlit.safe hlit.marks).tail
      (he.poised hA howed hscene.symm hconsole (.inl rfl)) (.inl rfl) ?_ hready
      hlit.generated he.sees fun S X v' hp' hX hv hconsole => ?_
    · exact Passes.mono lam.body (fun a m hm => ⟨a, rfl, hm⟩) hlit.passes
    · refine hret ?_ hX hv hconsole
      refine (passage_pair he).trans_inner hp' ⟨Nat.le_refl _, ?_⟩ nofun
      rw [Scene.setAll_size]
      exact Nat.lt_succ_self _

theorem Rel.alike {v' : Value} (h : Rel names P v v') : v.Alike v' := by
  cases h with
  | int n => exact .int n
  | str s => exact .str s
  | bool b => exact .bool b
  | host x id => exact .host x id
  | closure h _ _ => exact .closure h.name.symm

theorem Rel.refl_of_ne_closure (h : ∀ f i, v ≠ .closure f i) : Rel names P v v := by
  cases v with
  | int n => exact .int n
  | str s => exact .str s
  | bool b => exact .bool b
  | host x id => exact .host x id
  | closure f i => exact absurd rfl (h f i)

theorem Agree.faithful (hA : Agree names P V) : Faithful (Rel names P) :=
  ⟨Rel.alike, Rel.refl_of_ne_closure, Rel.same hA⟩

/-- A host function, whose result goes to the continuation. -/
theorem simulatesCall_host {id : Nat} (hdet : (hosts id).Detached)
    (h : hosts id vs w = (.ok v, w₁)) : SimulatesCall hosts names (.host x id) vs w v w₁ := by
  intro P f' vs' ret post hA hconsole hf hvs hret
  cases hf
  obtain ⟨v', hv', hv, hconsole'⟩ := hdet.uniform hA.faithful hvs hconsole (congrArg Prod.fst h)
  rw [h] at hconsole'
  have hstore : w₁.store = w.store := by
    rw [← hdet.store vs w, h]
  have hscene : (hosts id vs' P.world).2.store.scene = P.scene := by
    rw [hdet.store]
    rfl
  obtain ⟨hL, hA'⟩ := hA.print hscene
  refine replies_host (Prod.ext hv' rfl) (hret ?_ rfl (hv.mono hA hL) hconsole')
  rw [hstore]
  exact ⟨hL, hA', .refl _ _, nofun, .inl, .inl⟩

/-! ### All terms -/

variable (hosts names) in
/-- With this much fuel for the first run, the transform follows. -/
structure SimulatedWith (fuel : Nat) : Prop where
  evaluate : ∀ {t i w v w'}, Safe names t.erase → t.marks.Nodup →
    Direct.evaluate hosts .implicit fuel t i w = some (.ok v, w') →
    SimulatesAll hosts names [t] i w [v] w'
  sequence : ∀ {t ts last i w v w'}, (∀ u ∈ t :: ts, Safe names u.erase) →
    (marksAll (t :: ts)).Nodup →
    Direct.sequence hosts .implicit fuel (t :: ts) last i w = some (.ok v, w') →
    SimulatesSequence hosts names (t :: ts) i w v w'
  arguments : ∀ {ts i w vs w'}, (∀ u ∈ ts, Safe names u.erase) → (marksAll ts).Nodup →
    (ts.Pairwise fun a b => Undisturbed names a.erase b.erase = true ∧
      Settled names a.erase b.erase = true) →
    Direct.arguments hosts .implicit fuel ts i w = some (.ok vs, w') →
    SimulatesAll hosts names ts i w vs w'
  declare : ∀ {bs body i w v w'}, ThroughoutBindings (Sound names) (Term.eraseBindings bs) →
    Safe names body.erase → (Term.declare bs body).marks.Nodup →
    Direct.declare hosts .implicit fuel bs body i w = some (.ok v, w') →
    SimulatesBindings hosts names bs body i w v w'
  apply : ∀ {f vs w v w'}, Direct.apply hosts .implicit fuel f vs w = some (.ok v, w') →
    SimulatesCall hosts names f vs w v w'

namespace SimulatedWith

variable {fuel : Nat}

theorem apply_succ (hdet : ∀ id, (hosts id).Detached) (ih : SimulatedWith hosts names fuel)
    {f : Value} (h : Direct.apply hosts .implicit (fuel + 1) f vs w = some (.ok v, w')) :
    SimulatesCall hosts names f vs w v w' := by
  cases f with
  | closure lam i => exact simulatesCall_closure fun hsafe hmarks => ih.evaluate hsafe hmarks h
  | host x id => exact simulatesCall_host (hdet id) (Option.some.inj h)
  | int n | str s | bool b => cases h

theorem arguments_succ (ih : SimulatedWith hosts names fuel)
    (hsafe : ∀ u ∈ ts, Safe names u.erase) (hmarks : (marksAll ts).Nodup)
    (hapart : ts.Pairwise fun a b => Undisturbed names a.erase b.erase = true ∧
      Settled names a.erase b.erase = true)
    (h : Direct.arguments hosts .implicit (fuel + 1) ts i w = some (.ok vs, w')) :
    SimulatesAll hosts names ts i w vs w' := by
  cases ts with
  | nil =>
    cases h
    exact simulates_nil
  | cons t ts =>
    obtain ⟨a, as, w₁, ht, hts, rfl⟩ := Direct.arguments_cons_ok h
    rw [List.forall_mem_cons] at hsafe
    rw [List.pairwise_cons] at hapart
    have hm : (t.marks ++ marksAll ts).Nodup := hmarks
    exact simulates_cons (ih.evaluate hsafe.1 hm.of_append_left ht)
      (ih.arguments hsafe.2 hm.of_append_right hapart.2 hts) hmarks hapart.1

theorem sequence_succ (ih : SimulatedWith hosts names fuel) {last : Value}
    (hsafe : ∀ u ∈ t :: ts, Safe names u.erase) (hmarks : (marksAll (t :: ts)).Nodup)
    (h : Direct.sequence hosts .implicit (fuel + 1) (t :: ts) last i w = some (.ok v, w')) :
    SimulatesSequence hosts names (t :: ts) i w v w' := by
  obtain ⟨a, w₁, ht, h⟩ := Direct.sequence_cons_ok h
  rw [List.forall_mem_cons] at hsafe
  have hm : (t.marks ++ marksAll ts).Nodup := hmarks
  have hsim := ih.evaluate hsafe.1 hm.of_append_left ht
  cases ts with
  | nil =>
    cases fuel with
    | zero => cases h
    | succ fuel =>
      cases h
      exact simulates_last hsim
  | cons u ts =>
    have hrest := ih.sequence hsafe.2 hm.of_append_right h
    by_cases hp : t.erase.isPure = true
    · exact simulates_sequence_pure hp ((Direct.StillWith.all fuel).evaluate hp ht) hrest
    · exact simulates_sequence_cons hp hsim hrest hmarks

theorem declare_succ (ih : SimulatedWith hosts names fuel) {bs : List (Binding Code)}
    (hbs : ThroughoutBindings (Sound names) (Term.eraseBindings bs)) (hsafe : Safe names body.erase)
    (hmarks : (Term.declare bs body).marks.Nodup)
    (h : Direct.declare hosts .implicit (fuel + 1) bs body i w = some (.ok v, w')) :
    SimulatesBindings hosts names bs body i w v w' := by
  cases bs with
  | nil => exact simulates_body (ih.evaluate hsafe hmarks h)
  | cons b bs =>
    obtain ⟨x, t?⟩ := b
    cases t? with
    | none =>
      have hx : ¬ Generated x := hbs.ordinary ⟨x, none⟩ List.mem_cons_self
      refine simulates_binding (simulates_bool false) (ih.declare hbs.tail hsafe hmarks h) hx
        (Footprint.part_of (List.nil_subset _) (fun _ => rfl) (List.nil_subset _))
        (Footprint.part_of (List.Subset.refl _) id (List.Subset.refl _)) id
    | some t =>
      obtain ⟨a, w₁, ht, h⟩ := Direct.declare_cons_ok h
      have hx : ¬ Generated x := hbs.ordinary ⟨x, some t.erase⟩ List.mem_cons_self
      have hm : (t.marks ++ Term.marksBindings bs ++ body.marks).Nodup := hmarks
      rw [List.append_assoc] at hm
      refine simulates_binding (ih.evaluate hbs.head hm.of_append_left ht)
        (ih.declare hbs.tail hsafe hm.of_append_right h) hx
        (Footprint.part_of ?_ ?_ ?_) (Footprint.part_of ?_ ?_ ?_) id
      · simp [Term.marks, Term.marksBindings]
      · simp +contextual [Term.erase, Term.eraseBindings, Term.isPure, Term.bindingsPure]
      · simp [Term.erase, Term.eraseBindings, Term.reads_declare_cons]
      · simp [Term.marks, Term.marksBindings]
      · simp +contextual [Term.erase, Term.eraseBindings, Term.isPure, Term.bindingsPure]
      · simp [Term.erase, Term.eraseBindings, Term.reads_declare_cons]

theorem conditional_succ (ih : SimulatedWith hosts names fuel) {test consequent : Code}
    {alternative? : Option Code}
    (hsafe : Safe names (Term.conditional test consequent alternative? : Code).erase)
    (hmarks : (Term.conditional test consequent alternative?).marks.Nodup)
    (h : Direct.evaluate hosts .implicit (fuel + 1) (.conditional test consequent alternative?) i w =
      some (.ok v, w')) :
    SimulatesAll hosts names [.conditional test consequent alternative?] i w [v] w' := by
  obtain ⟨a, w₁, htest, h⟩ := Direct.evaluate_conditional_ok h
  cases alternative? with
  | none =>
    obtain ⟨hst, hsc, -⟩ := hsafe.conditional
    have hm : (test.marks ++ consequent.marks).Nodup := hmarks
    have hb : SimulatesAll hosts names [if a.isTruthy then consequent else .absent] i w₁ [v] w' := by
      rcases h with ⟨ha, h⟩ | ⟨-, -, ⟨⟩, -⟩ | ⟨ha, -, rfl, rfl⟩
      · rw [if_pos ha]
        exact ih.evaluate hsc hm.of_append_right h
      · rw [ha]
        exact simulates_bool false
    refine simulates_branch (ih.evaluate hst hm.of_append_left htest) hb rfl
      (Footprint.part_of ?_ ?_ ?_) (Footprint.part_of ?_ ?_ ?_) ?_ rfl ?_
    · simp [Term.marks]
    · simp +contextual [Term.erase, Term.isPure]
    · simp [Term.erase, Term.reads_conditional_none]
    · cases a.isTruthy <;> simp [Term.marks, Term.absent]
    · cases a.isTruthy <;> simp +contextual [Term.erase, Term.isPure, Term.absent]
    · cases a.isTruthy
      · exact List.nil_subset _
      · simp [Term.erase, Term.reads_conditional_none]
    · cases a.isTruthy
      · simpa [marksAll, Term.marks, Term.absent] using hm.of_append_left
      · simpa [marksAll] using hm
    · intro K m hm
      refine Passes.mono test (fun r m hm => ?_) hm
      obtain ⟨n, rest, c, hrest, hc, hm⟩ := hm
      exact ⟨n, rest, c, _, hrest, hc, rfl, hm⟩
  | some alternative =>
    obtain ⟨hst, hsc, hsa⟩ := hsafe.conditional
    have hm : (test.marks ++ (consequent.marks ++ alternative.marks)).Nodup := hmarks
    have hb : SimulatesAll hosts names [if a.isTruthy then consequent else alternative] i w₁ [v]
        w' := by
      rcases h with ⟨ha, h⟩ | ⟨ha, b, e, h⟩ | ⟨-, ⟨⟩, -⟩
      · rw [if_pos ha]
        exact ih.evaluate hsc hm.of_append_right.of_append_left h
      · cases e
        rw [ha]
        exact ih.evaluate (hsa _ rfl) hm.of_append_right.of_append_right h
    refine simulates_branch (ih.evaluate hst hm.of_append_left htest) hb rfl
      (Footprint.part_of ?_ ?_ ?_) (Footprint.part_of ?_ ?_ ?_) ?_ rfl id
    · simp [Term.marks]
    · simp +contextual [Term.erase, Term.isPure]
    · simp [Term.erase, Term.reads_conditional]
    · cases a.isTruthy <;> simp [Term.marks]
    · cases a.isTruthy <;> simp +contextual [Term.erase, Term.isPure]
    · cases a.isTruthy <;> simp [Term.erase, Term.reads_conditional]
    · refine hm.sublist ?_
      cases a.isTruthy <;> simp [marksAll]

theorem evaluate_succ (ih : SimulatedWith hosts names fuel) (hsafe : Safe names t.erase)
    (hmarks : t.marks.Nodup)
    (h : Direct.evaluate hosts .implicit (fuel + 1) t i w = some (.ok v, w')) :
    SimulatesAll hosts names [t] i w [v] w' := by
  cases t with
  | int n =>
    cases h
    exact simulates_constant id rfl rfl (fun _ _ => gives_int n) fun _ => .int n
  | str s =>
    cases h
    exact simulates_constant id rfl rfl (fun _ _ => gives_str s) fun _ => .str s
  | bool b =>
    cases h
    exact simulates_bool b
  | var x =>
    obtain ⟨hv, rfl⟩ := Direct.evaluate_var_ok h
    exact simulates_var hsafe hv
  | assign target t =>
    cases target with
    | var x =>
      obtain ⟨w₁, store, ht, hset, rfl⟩ := Direct.evaluate_assign_ok h
      exact simulates_assign (ih.evaluate hsafe.assign hmarks ht) hsafe hset
    | _ => cases h
  | negate t =>
    obtain ⟨a, ht, rfl⟩ := Direct.evaluate_negate_ok h
    exact simulates_negate (ih.evaluate hsafe.negate hmarks ht)
  | binary op left right =>
    obtain ⟨a, b, w₁, hl, hr, hop⟩ := Direct.evaluate_binary_ok h
    have hm : (left.marks ++ right.marks).Nodup := hmarks
    have hapart := List.pairwise_pair.mp hsafe.self.apart
    refine simulates_binary (simulates_cons (ih.evaluate hsafe.binary.1 hm.of_append_left hl)
      (ih.evaluate hsafe.binary.2 hm.of_append_right hr) ?_ ?_) hop
    · simpa [marksAll] using hm
    · exact List.forall_mem_singleton.mpr hapart
  | seq items =>
    cases items with
    | nil =>
      cases fuel with
      | zero => cases h
      | succ fuel =>
        cases h
        exact simulates_constant id rfl rfl (fun _ _ => gives_bool false) fun _ => .bool false
    | cons t ts =>
      refine simulates_seq (ih.sequence (fun u hu => hsafe.seq u.erase ?_) hmarks h)
      rw [Term.eraseAll_eq_map]
      exact List.mem_map_of_mem hu
  | call callee args =>
    obtain ⟨f, vs, w₁, w₂, hf, hvs, happly⟩ := Direct.evaluate_call_ok h
    have hm : (callee.marks ++ marksAll args).Nodup := hmarks
    have hs : ∀ u ∈ callee :: args, Safe names u.erase := by
      intro u hu
      refine hsafe.call u.erase ?_
      rw [Term.eraseAll_eq_map]
      exact List.mem_map_of_mem (f := Term.erase) hu
    rw [List.forall_mem_cons] at hs
    have hapart : (callee :: args).Pairwise fun a b => Undisturbed names a.erase b.erase = true ∧
        Settled names a.erase b.erase = true := by
      have h : (callee.erase :: Term.eraseAll args).Pairwise _ := hsafe.self.apart
      rw [Term.eraseAll_eq_map, ← List.map_cons] at h
      exact List.pairwise_map.mp h
    rw [List.pairwise_cons] at hapart
    exact simulates_call (simulates_cons (ih.evaluate hs.1 hm.of_append_left hf)
      (ih.arguments hs.2 hm.of_append_right hapart.2 hvs) hmarks hapart.1) (ih.apply happly)
  | function label name? params body =>
    cases h
    exact simulates_function hsafe hmarks
  | conditional test consequent alternative? => exact ih.conditional_succ hsafe hmarks h
  | declare bindings body =>
    obtain ⟨hbs, hbody⟩ := ThroughoutBindings.of_declare hsafe hsafe.self.ordinary
    exact ih.declare hbs hbody hmarks h

theorem all (hdet : ∀ id, (hosts id).Detached) (fuel : Nat) : SimulatedWith hosts names fuel := by
  induction fuel with
  | zero => exact ⟨nofun, nofun, nofun, nofun, nofun⟩
  | succ fuel ih =>
    exact ⟨ih.evaluate_succ, ih.sequence_succ, ih.arguments_succ, ih.declare_succ,
      ih.apply_succ hdet⟩

end SimulatedWith

end LetLambda
