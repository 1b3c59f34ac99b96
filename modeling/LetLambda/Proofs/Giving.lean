import LetLambda.Proofs.Scene

/-!
# What comes out with an explicit convention

`Gives t j w v w'` says that a term has a value whenever there is fuel enough, under the convention
of transformed terms. In a transformed term the last thing that happens is a call, so what comes
out of it is what comes out of the call; `Answers` and `Replies` leave it open and say only what is
known of it.
-/

namespace LetLambda

variable (hosts : Hosts)

/-- Evaluating `t` in frame `j` gives `v` and leaves the world `w'`. -/
def Gives (t : Code) (j : FrameId) (w : World) (v : Value) (w' : World) : Prop :=
  ∃ n, ∀ fuel, n ≤ fuel → Direct.evaluate hosts .explicit fuel t j w = some (.ok v, w')

/-- Evaluating terms one after another gives values. -/
def GivesAll : List Code → FrameId → World → List Value → World → Prop
  | [], _, w, vs, w' => vs = [] ∧ w' = w
  | t :: ts, j, w, vs, w' =>
    ∃ v vs₁ w₁, vs = v :: vs₁ ∧ Gives hosts t j w v w₁ ∧ GivesAll ts j w₁ vs₁ w'

/-- Evaluating `t` gives something of which `post` holds. -/
def Answers (post : Value → World → Prop) (t : Code) (j : FrameId) (w : World) : Prop :=
  ∃ v w', Gives hosts t j w v w' ∧ post v w'

/-- Applying `f` gives something of which `post` holds. -/
def Replies (post : Value → World → Prop) (f : Value) (args : List Value) (w : World) : Prop :=
  ∃ v w', (∃ n, ∀ fuel, n ≤ fuel → Direct.apply hosts .explicit fuel f args w = some (.ok v, w')) ∧
    post v w'

variable {hosts} {post : Value → World → Prop} {t : Code} {ts : List Code} {j : FrameId}
  {w w₁ w₂ : World} {v a b : Value} {x : Name}

/-! ### Values of simple terms -/

theorem givesAll_singleton {vs : List Value} :
    GivesAll hosts [t] j w vs w₁ ↔ ∃ v, vs = [v] ∧ Gives hosts t j w v w₁ := by
  constructor
  · rintro ⟨v, _, _, rfl, h, rfl, rfl⟩
    exact ⟨v, rfl, h⟩
  · rintro ⟨v, rfl, h⟩
    exact ⟨v, [], w₁, rfl, h, rfl, rfl⟩

theorem gives_of_succ (h : ∀ fuel, Direct.evaluate hosts .explicit (fuel + 1) t j w =
    some (.ok v, w₁)) : Gives hosts t j w v w₁ := by
  refine ⟨1, fun fuel hf => ?_⟩
  obtain ⟨k, rfl⟩ := Nat.exists_eq_add_of_le' hf
  exact h k

theorem gives_int (n : Int64) : Gives hosts (.int n) j w (.int n) w := gives_of_succ fun _ => rfl

theorem gives_str (s : String) : Gives hosts (.str s) j w (.str s) w := gives_of_succ fun _ => rfl

theorem gives_bool (p : Bool) : Gives hosts (.bool p) j w (.bool p) w := gives_of_succ fun _ => rfl

theorem gives_var (h : w.store.scene.lookup j x = some v) : Gives hosts (.var x) j w v w := by
  refine gives_of_succ fun fuel => ?_
  rw [Store.scene_lookup] at h
  rw [Direct.evaluate, Store.get, h]

theorem gives_function (label : Nat) (name? : Option Name) (params : List Name) (body : Code) :
    Gives hosts (.function label name? params body) j w
      (Direct.close w ⟨label, name?, params, body⟩ j).1
      (Direct.close w ⟨label, name?, params, body⟩ j).2 := gives_of_succ fun _ => rfl

theorem gives_negate (h : Gives hosts t j w v w₁) :
    Gives hosts (.negate t) j w (.bool (!v.isTruthy)) w₁ := by
  obtain ⟨n, h⟩ := h
  refine ⟨n + 1, fun fuel hf => ?_⟩
  obtain ⟨k, rfl⟩ := Nat.exists_eq_add_of_le hf
  rw [Nat.add_right_comm, Direct.evaluate, h _ (Nat.le_add_right n k)]
  rfl

theorem gives_assign (h : Gives hosts t j w v w₁) {store : Store}
    (hset : w₁.store.set? j x v = some store) :
    Gives hosts (.assign (.var x) t) j w v { w₁ with store } := by
  obtain ⟨n, h⟩ := h
  refine ⟨n + 1, fun fuel hf => ?_⟩
  obtain ⟨k, rfl⟩ := Nat.exists_eq_add_of_le hf
  rw [Nat.add_right_comm, Direct.evaluate, h _ (Nat.le_add_right n k)]
  simp only [Option.bind_eq_bind, Option.bind_some, Direct.assign, hset]

theorem gives_binary {op : String} {left right : Code} (hl : Gives hosts left j w a w₁)
    (hr : Gives hosts right j w₁ b w₂) (h : Value.operateSymbol op a b = .ok v) :
    Gives hosts (.binary op left right) j w v w₂ := by
  obtain ⟨m, hl⟩ := hl
  obtain ⟨n, hr⟩ := hr
  refine ⟨m + n + 1, fun fuel hf => ?_⟩
  obtain ⟨k, rfl⟩ := Nat.exists_eq_add_of_le hf
  rw [Nat.add_right_comm, Direct.evaluate, hl _ (by omega)]
  simp only [Option.bind_eq_bind, Option.bind_some]
  rw [hr _ (by omega)]
  simp only [Option.bind_some, h]

/-! ### What transformed terms answer -/

theorem answers_of_gives (h : Gives hosts t j w v w₁) (hpost : post v w₁) :
    Answers hosts post t j w := ⟨v, w₁, h, hpost⟩

theorem answers_seq (h : Gives hosts t j w v w₁) {rest : Code}
    (hrest : Answers hosts post rest j w₁) : Answers hosts post (.seq [t, rest]) j w := by
  obtain ⟨m, h⟩ := h
  obtain ⟨b, w₂, ⟨n, hb⟩, hpost⟩ := hrest
  refine ⟨b, w₂, ⟨m + n + 4, fun fuel hf => ?_⟩, hpost⟩
  obtain ⟨k, rfl⟩ := Nat.exists_eq_add_of_le hf
  rw [show m + n + 4 + k = m + n + k + 1 + 1 + 1 + 1 by omega, Direct.evaluate, Direct.sequence,
    h _ (by omega)]
  simp only [Option.bind_eq_bind, Option.bind_some]
  rw [Direct.sequence, hb _ (by omega)]
  simp only [Option.bind_eq_bind, Option.bind_some]
  rw [Direct.sequence]

theorem arguments_of_givesAll {vs : List Value} (h : GivesAll hosts ts j w vs w₁) :
    ∃ n, ∀ fuel, n ≤ fuel →
      Direct.arguments hosts .explicit fuel ts j w = some (.ok vs, w₁) := by
  induction ts generalizing w vs with
  | nil =>
    obtain ⟨rfl, rfl⟩ := h
    refine ⟨1, fun fuel hf => ?_⟩
    obtain ⟨k, rfl⟩ := Nat.exists_eq_add_of_le' hf
    rw [Direct.arguments]
  | cons t ts ih =>
    obtain ⟨v, vs, w₂, rfl, ⟨m, ht⟩, hts⟩ := h
    obtain ⟨n, hts⟩ := ih hts
    refine ⟨m + n + 1, fun fuel hf => ?_⟩
    obtain ⟨k, rfl⟩ := Nat.exists_eq_add_of_le hf
    rw [Nat.add_right_comm, Direct.arguments, ht _ (by omega)]
    simp only [Option.bind_eq_bind, Option.bind_some]
    rw [hts _ (by omega)]
    simp only [Option.bind_some]

theorem answers_call {callee : Code} (hf : Gives hosts callee j w a w₁) {vs : List Value}
    (hvs : GivesAll hosts ts j w₁ vs w₂) (h : Replies hosts post a vs w₂) :
    Answers hosts post (.call callee ts) j w := by
  obtain ⟨l, hf⟩ := hf
  obtain ⟨m, hvs⟩ := arguments_of_givesAll hvs
  obtain ⟨b, w', ⟨n, hb⟩, hpost⟩ := h
  refine ⟨b, w', ⟨l + m + n + 1, fun fuel hfuel => ?_⟩, hpost⟩
  obtain ⟨k, rfl⟩ := Nat.exists_eq_add_of_le hfuel
  rw [Nat.add_right_comm, Direct.evaluate, hf _ (by omega)]
  simp only [Option.bind_eq_bind, Option.bind_some]
  rw [hvs _ (by omega)]
  simp only [Option.bind_some]
  exact hb _ (by omega)

theorem answers_conditional {test consequent alternative : Code} (h : Gives hosts test j w v w₁)
    (hbranch : Answers hosts post (if v.isTruthy then consequent else alternative) j w₁) :
    Answers hosts post (.conditional test consequent (some alternative)) j w := by
  obtain ⟨m, h⟩ := h
  obtain ⟨b, w₂, ⟨n, hb⟩, hpost⟩ := hbranch
  refine ⟨b, w₂, ⟨m + n + 1, fun fuel hf => ?_⟩, hpost⟩
  obtain ⟨k, rfl⟩ := Nat.exists_eq_add_of_le hf
  rw [Nat.add_right_comm, Direct.evaluate, h _ (by omega)]
  simp only [Option.bind_eq_bind, Option.bind_some]
  have hb := hb (m + n + k) (by omega)
  split
  · next ht => rwa [if_pos ht] at hb
  · next ht => rwa [if_neg ht] at hb

theorem replies_closure {lambda : Lambda} {args : List Value}
    (h : Answers hosts post lambda.body w.store.scene.size
      (Direct.enter w j fun store frame => store.defineAll frame lambda.params args).2) :
    Replies hosts post (.closure lambda j) args w := by
  obtain ⟨b, w₂, ⟨n, hb⟩, hpost⟩ := h
  refine ⟨b, w₂, ⟨n + 1, fun fuel hf => ?_⟩, hpost⟩
  obtain ⟨k, rfl⟩ := Nat.exists_eq_add_of_le hf
  rw [Nat.add_right_comm, Direct.apply]
  exact hb _ (Nat.le_add_right n k)

theorem replies_host {id : Nat} {ret : Value} {args : List Value}
    (hhost : hosts id args w = (.ok v, w₁)) (h : Replies hosts post ret [v] w₁) :
    Replies hosts post (.host x id) (ret :: args) w := by
  obtain ⟨b, w₂, ⟨n, hb⟩, hpost⟩ := h
  refine ⟨b, w₂, ⟨n + 1, fun fuel hf => ?_⟩, hpost⟩
  obtain ⟨k, rfl⟩ := Nat.exists_eq_add_of_le hf
  rw [Nat.add_right_comm, Direct.apply]
  simp only [hhost]
  exact hb _ (Nat.le_add_right n k)

end LetLambda
