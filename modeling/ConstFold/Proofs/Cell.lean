import ConstFold.Cell
import Mathlib.Tactic.SplitIfs

/-!
# What a cell keeps

A step that only asks, and one that fails, leaves the constant of a cell as it is. So the rest of a
run does not depend on it: the steps that are left after some of these are deleted answer what they
answered before, and report the same events.

A payload can be read in three ways, which differ in what they do if the kind is wrong, and two
questions can be asked at a kind that the caller tracks. Which of the ways a caller takes makes no
difference as long as the kind is right, and none of them takes the bits of one kind for another.

## Main definitions

* `Cell.after`, `Cell.history` — where a run ends, and its outcomes
* `Cell.Thinned` — a history some of whose idle steps are deleted
* `Cell.ReadsAgree`, `Cell.TrackedReadsAgree` — typed access at a kind, in all its ways

## Main results

* `state_step` — a query or a failure keeps the constant
* `history_of_thinned` — idle steps can be deleted from a run
* `readsAgree`, `trackedReadsAgree` — typed access never reinterprets a payload
* `run_idle` — what a cell guarantees in every run
-/

namespace ConstFold

/-! ### Payloads -/

theorem Value.get?_ofPayload (k : Kind) (p : k.Payload) : (ofPayload k p).get? k = some p := by
  cases k with
  | void | tuple => exact nomatch p
  | _ => rfl

theorem Value.get?_of_kind_ne {v : Value} {k : Kind} (h : v.kind ≠ k) : v.get? k = none := by
  cases v <;> cases k <;> first | rfl | exact absurd rfl h

namespace Cell

/-! ### Idle steps -/

/-- The steps that cannot replace the constant. -/
def Step.isQuery : Step → Bool
  | set _ | zero _ | convert _ => false
  | _ => true

/-- The answers of the steps that have no result. -/
def Answer.isFailure : Answer → Bool
  | failed _ | misused _ => true
  | _ => false

/-- A step that only asked, or that failed. Failure is read off the answer: a step that reports a
mismatch of kinds or a misuse is idle even if it could have replaced the constant. -/
def Idle (s : Step) (o : Outcome) : Prop :=
  s.isQuery = true ∨ o.answer.isFailure = true

theorem state_replace {v : Value} {next : Traced (Except KindError Value)}
    (h : (replace v next).answer.isFailure = true) : (replace v next).state = v := by
  obtain ⟨result, events⟩ := next
  cases result with
  | error e => rfl
  | ok w => cases h

/-- **An idle step keeps the constant.** -/
theorem state_step {v : Value} {s : Step} (h : Idle s (step v s)) : (step v s).state = v := by
  cases s with
  | set w => exact state_replace (h.resolve_left Bool.false_ne_true)
  | zero k => exact state_replace (h.resolve_left Bool.false_ne_true)
  | convert k => exact state_replace (h.resolve_left Bool.false_ne_true)
  | _ => rfl

/-! ### Runs -/

def after (v : Value) (steps : List Step) : Value :=
  steps.foldl (fun u s => (step u s).state) v

/-- The steps of a run, each with its outcome. -/
def history (v : Value) (steps : List Step) : List (Step × Outcome) :=
  steps.zip (run v steps)

theorem history_cons (v : Value) (s : Step) (rest : List Step) :
    history v (s :: rest) = (s, step v s) :: history (step v s).state rest :=
  rfl

/-- A history, and what is left of it when some of the idle steps are deleted. An idle step may also
be kept, so one history has many such rests, itself among them. -/
inductive Thinned : List (Step × Outcome) → List (Step × Outcome) → Prop where
  | nil : Thinned [] []
  | keep {h rest : List (Step × Outcome)} (e : Step × Outcome) :
    Thinned h rest → Thinned (e :: h) (e :: rest)
  | delete {h rest : List (Step × Outcome)} (e : Step × Outcome) :
    Idle e.1 e.2 → Thinned h rest → Thinned (e :: h) rest

/-- **The steps that are left run as before, and to the same end.** By induction on the steps, for
every constant to start from: a step that is deleted keeps the constant, hence the rest runs from
the constant that it ran from. -/
theorem history_of_thinned {v : Value} {steps : List Step} {rest : List (Step × Outcome)}
    (h : Thinned (history v steps) rest) :
    history v (rest.map Prod.fst) = rest ∧ after v (rest.map Prod.fst) = after v steps := by
  induction steps generalizing v rest with
  | nil =>
    cases h
    exact ⟨rfl, rfl⟩
  | cons s steps ih =>
    rw [history_cons] at h
    cases h with
    | keep _ h =>
      obtain ⟨hrest, hend⟩ := ih h
      exact ⟨by rw [List.map_cons, history_cons, hrest], hend⟩
    | delete _ hidle h =>
      obtain ⟨hrest, hend⟩ := ih h
      have hkeep : (step v s).state = v := state_step hidle
      rw [hkeep] at hrest hend
      refine ⟨hrest, hend.trans ?_⟩
      exact congrArg (after · steps) hkeep.symm

/-! ### Reading a payload -/

theorem answer_get (u : Value) (k : Kind) :
    (step u (.get k)).answer = .value (if u.kind = k then some u else none) := by
  split_ifs with h
  · obtain ⟨p, rfl⟩ := Value.exists_eq_ofPayload h
    simp only [step, ask, Traced.silent, Value.get?_ofPayload, Option.map_some]
  · simp only [step, ask, Traced.silent, Value.get?_of_kind_ne h, Option.map_none]

theorem answer_tryGet (u : Value) (k : Kind) :
    (step u (.tryGet k)).answer =
      if u.kind = k then .value (some u) else .failed (.kindMismatch k u.kind) := by
  split_ifs with h
  · obtain ⟨p, rfl⟩ := Value.exists_eq_ofPayload h
    simp only [step, ask, Traced.silent, Value.tryGet, Value.get?_ofPayload, Answer.ofExcept]
  · simp only [step, ask, Traced.silent, Value.tryGet, Value.get?_of_kind_ne h, Answer.ofExcept]

theorem answer_payload (u : Value) (k : Kind) :
    (step u (.payload k)).answer =
      if u.kind = k then .value (some u) else .misused (.payloadAccess k u.kind) := by
  split_ifs with h
  · obtain ⟨p, rfl⟩ := Value.exists_eq_ofPayload h
    simp only [step, ask, Traced.silent, Value.payload, Value.tryGet, Value.get?_ofPayload,
      Answer.ofGuarded]
  · simp only [step, ask, Traced.silent, Value.payload, Value.tryGet, Value.get?_of_kind_ne h,
      Answer.ofGuarded]

/-- The three ways to read a cell that holds `u` at kind `k` succeed together, with the constant
itself, and else report the two kinds. -/
structure ReadsAgree (u : Value) (k : Kind) : Prop where
  get_iff : (∃ w, (step u (.get k)).answer = .value (some w)) ↔ u.kind = k
  of_kind : u.kind = k →
    (step u (.get k)).answer = .value (some u) ∧
      (step u (.tryGet k)).answer = .value (some u) ∧
      (step u (.payload k)).answer = .value (some u)
  of_kind_ne : u.kind ≠ k →
    (step u (.get k)).answer = .value none ∧
      (step u (.tryGet k)).answer = .failed (.kindMismatch k u.kind) ∧
      (step u (.payload k)).answer = .misused (.payloadAccess k u.kind) ∧
      (Misuse.payloadAccess k u.kind).message =
        "payload access: " ++ (KindError.kindMismatch k u.kind).message

theorem readsAgree (u : Value) (k : Kind) : ReadsAgree u k where
  get_iff := by
    rw [answer_get]
    split_ifs with h <;> simp [h]
  of_kind h := by
    rw [answer_get, answer_tryGet, answer_payload, if_pos h, if_pos h, if_pos h]
    exact ⟨rfl, rfl, rfl⟩
  of_kind_ne h := by
    rw [answer_get, answer_tryGet, answer_payload, if_neg h, if_neg h, if_neg h]
    exact ⟨rfl, rfl, rfl, rfl⟩

/-! ### Asking at a tracked kind -/

theorem answer_isNonzeroAs {k : Kind} (hk : k.hasPayload = true) (u : Value) :
    (step u (.isNonzeroAs k)).answer =
      if u.kind = k then (step u .isNonzero).answer else .misused (.trackedKind k u.kind) := by
  simp only [step, ask, Traced.silent, Value.isNonzeroAs, Value.checkKind, hk, if_true]
  split_ifs <;> rfl

theorem answer_eqAs {k : Kind} (hk : k.hasPayload = true) (u other : Value) :
    (step u (.eqAs k other)).answer =
      if u.kind = k then
        if other.kind = k then (step u (.eq other)).answer
        else .misused (.trackedKind k other.kind)
      else .misused (.trackedKind k u.kind) := by
  simp only [step, ask, Traced.silent, Value.eqAs, Value.checkKind, hk, if_true]
  split_ifs <;> rfl

/-- The two questions at a tracked kind are true of a kind without payload, agree with the plain
questions if the operands have that kind, and else report the first operand that does not. -/
structure TrackedReadsAgree (u : Value) (k : Kind) (other : Value) : Prop where
  of_not_hasPayload : k.hasPayload = false →
    (step u (.isNonzeroAs k)).answer = .flag true ∧
      (step u (.eqAs k other)).answer = .flag true
  isNonzeroAs_of_kind : k.hasPayload = true → u.kind = k →
    (step u (.isNonzeroAs k)).answer = .flag u.isNonzero
  eqAs_of_kind : k.hasPayload = true → u.kind = k → other.kind = k →
    (step u (.eqAs k other)).answer = .flag (u.eqBits other)
  of_kind_ne : k.hasPayload = true → u.kind ≠ k →
    (step u (.isNonzeroAs k)).answer = .misused (.trackedKind k u.kind) ∧
      (step u (.eqAs k other)).answer = .misused (.trackedKind k u.kind)
  of_other_kind_ne : k.hasPayload = true → u.kind = k → other.kind ≠ k →
    (step u (.eqAs k other)).answer = .misused (.trackedKind k other.kind)
  message_eq (found : Kind) : (Misuse.trackedKind k found).message =
    "value accessed with caller-tracked kind: " ++ (KindError.kindMismatch k found).message

theorem trackedReadsAgree (u : Value) (k : Kind) (other : Value) :
    TrackedReadsAgree u k other where
  of_not_hasPayload hk := by
    simp only [step, ask, Traced.silent, Value.isNonzeroAs, Value.eqAs, hk, Bool.false_eq_true,
      if_false]
    exact ⟨rfl, rfl⟩
  isNonzeroAs_of_kind hk h := by
    rw [answer_isNonzeroAs hk, if_pos h]
    rfl
  eqAs_of_kind hk h ho := by
    rw [answer_eqAs hk, if_pos h, if_pos ho]
    rfl
  of_kind_ne hk h := by
    rw [answer_isNonzeroAs hk, answer_eqAs hk, if_neg h, if_neg h]
    exact ⟨rfl, rfl⟩
  of_other_kind_ne hk h ho := by
    rw [answer_eqAs hk, if_pos h, if_neg ho]
  message_eq _ := rfl

/-! ### Main result -/

/-- **In every run, a cell changes as a whole or not at all, and no access to it reinterprets
bits.** Idle steps keep the constant, so they can be deleted from the run and the outcomes of the
other steps stay; and in the state that is reached, the ways of typed access agree with each other
at every kind. -/
theorem run_idle (v : Value) (steps : List Step) :
    (∀ s, Idle s (step (after v steps) s) → (step (after v steps) s).state = after v steps) ∧
      (∀ rest, Thinned (history v steps) rest →
        history v (rest.map Prod.fst) = rest ∧ after v (rest.map Prod.fst) = after v steps) ∧
      (∀ k, ReadsAgree (after v steps) k) ∧
      ∀ k other, TrackedReadsAgree (after v steps) k other :=
  ⟨fun _ => state_step, fun _ => history_of_thinned, readsAgree _, trackedReadsAgree _⟩

/-- A cell on which two of four steps fail: a conversion to conditions, and an access as a
single. -/
private def doubleSteps : List Step :=
  [.convert .cond, .convert .float64, .payload .float32, .get .float64]

/-- Without the steps that fail, the number is converted to a double and read as one all the
same. -/
theorem run_idle_double :
    Idle (.payload .float32) (step (after (.int32 5) doubleSteps) (.payload .float32)) ∧
      (step (after (.int32 5) doubleSteps) (.payload .float32)).state =
        after (.int32 5) doubleSteps ∧
      (∃ rest, Thinned (history (.int32 5) doubleSteps) rest ∧
        history (.int32 5) [.convert .float64, .get .float64] = rest) ∧
      (after (.int32 5) doubleSteps).kind = .float64 ∧
      (step (after (.int32 5) doubleSteps) (.tryGet .float64)).answer =
        .value (some (after (.int32 5) doubleSteps)) ∧
      (step (after (.int32 5) doubleSteps) (.tryGet .addr)).answer =
        .failed (.kindMismatch .addr .float64) ∧
      (step (after (.int32 5) doubleSteps) (.isNonzeroAs .float64)).answer = .flag true := by
  have hidle : Idle (.payload .float32) (step (after (.int32 5) doubleSteps) (.payload .float32)) :=
    .inl rfl
  have hkind : (after (.int32 5) doubleSteps).kind = .float64 := rfl
  have hthinned : Thinned (history (.int32 5) doubleSteps)
      (history (.int32 5) [.convert .float64, .get .float64]) :=
    .delete _ (.inr rfl) (.keep _ (.delete _ (.inr rfl) (.keep _ .nil)))
  obtain ⟨hkeep, hrest, hreads, htracked⟩ := run_idle (.int32 5) doubleSteps
  refine ⟨hidle, hkeep _ hidle, ⟨_, hthinned, (hrest _ hthinned).1⟩, hkind, ?_, ?_, ?_⟩
  · exact ((hreads .float64).of_kind hkind).2.1
  · have := ((hreads .addr).of_kind_ne (by rw [hkind]; decide)).2.1
    rwa [hkind] at this
  · have hnonzero : (after (.int32 5) doubleSteps).isNonzero = true := by decide +kernel
    rw [(htracked .float64 (.int32 5)).isNonzeroAs_of_kind rfl hkind, hnonzero]

end Cell

end ConstFold
