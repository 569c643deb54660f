import ConstFold.Proofs.Cell
import ConstFold.Proofs.Value.Compare
import ConstFold.Proofs.Value.Convert

/-!
# What a cell logs

The log of a run is a record of its folding: one line for each step that compared, converted or
simplified, in the order of the steps, and none for a step that failed or that does no folding. A
line shows the constants as they are displayed. `Logs` says so by recursion on the steps, and
mentions no events; it determines the log.

Which steps get a line depends on the kinds alone, apart from simplification. So a step that
converts the cell can turn later comparisons from failures into lines, or the other way round.

A test and a three-way comparison get the line of the comparison that they are made of, with the
outcome itself, not what the mask or the comparator makes of it.

## Main definitions

* `Event.Line`, `Event.line` — what a log shows of an event
* `Cell.log` — the events of a run
* `Cell.Folds`, `Cell.Reports` — the steps that get a line, and the line
* `Cell.Step.CanFold` — the same steps, known before they are taken
* `Cell.Logs` — a run and its lines

## Main results

* `recorded_step` — one event for a step that folds, none for another
* `folds_step_iff` — the steps that fold
* `run_log` — the log of every run
-/

namespace ConstFold

namespace Event

structure Line where
  level : Level
  message : String
  fields : List (String × Field)

def line (e : Event) : Line :=
  { level := e.level, message := e.message, fields := e.fields }

end Event

namespace Cell

def log (v : Value) (steps : List Step) : List Event :=
  (run v steps).flatMap Outcome.events

theorem log_cons (v : Value) (s : Step) (rest : List Step) :
    log v (s :: rest) = (step v s).events ++ log (step v s).state rest :=
  rfl

/-! ### Lines of a run -/

/-- The step folded: it compared, converted or simplified, and had a result. This is read off the
answer, after the step; `Step.CanFold` tells beforehand. -/
def Folds : Step → Outcome → Prop
  | .compare .., o | .test .., o | .ternary .., o | .convert _, o => o.answer.isFailure = false
  | .simplify _, o => o.answer ≠ .simplification none
  | _, _ => False

/-- The steps that can fold, known before they are taken: comparisons of constants of one kind that
has an order, conversions between numeric kinds, and operations that the constant simplifies. -/
def Step.CanFold (u : Value) : Step → Prop
  | compare other _ | test _ other _ | ternary _ other =>
    u.kind = other.kind ∧ u.kind ≠ .cond ∧ u.kind ≠ .memory
  | convert k => u.kind.isNumeric = true ∧ k.isNumeric = true
  | simplify op => simplify? op u ≠ none
  | _ => False

/-- The line of a comparison with outcome `c`. -/
def comparisonLine (lhs rhs : Value) (unsigned : Bool) (c : Condition) : Event.Line where
  level := .trace
  message := "folded compare"
  fields :=
    [("lhs", .text lhs.display), ("rhs", .text rhs.display), ("unsigned", .flag unsigned),
      ("result", .text c.name)]

/-- The line of a step on a cell that holds `u`, given what came of the step. It does not look
at the events of the step: the line is made of the operands, the answer and the constant after the
step, so that it can be compared with what folding emits. -/
inductive Reports (u : Value) : Step → Outcome → Event.Line → Prop where
  | compare {other : Value} {unsigned : Bool} {o : Outcome} {c : Condition} :
    u.compare other unsigned = .ok c → o.answer = .condition c →
    Reports u (.compare other unsigned) o (comparisonLine u other unsigned c)
  /-- The outcome is shown, and the answer is what the mask makes of it. -/
  | test {mask : Mask} {other : Value} {unsigned : Bool} {o : Outcome} {c : Condition} :
    u.compare other unsigned = .ok c → o.answer = .flag (mask.apply c) →
    Reports u (.test mask other unsigned) o (comparisonLine u other unsigned c)
  /-- Integers are compared as signed ones. -/
  | ternary {comparator : ThreeWay} {other : Value} {o : Outcome} {c : Condition} :
    u.compare other false = .ok c → o.answer = .sign (comparator.apply c) →
    Reports u (.ternary comparator other) o (comparisonLine u other false c)
  /-- The constant after the step is the conversion of the one before. -/
  | convert {k : Kind} {o : Outcome} :
    u.convert k = .ok o.state → o.answer = .done →
    Reports u (.convert k) o
      { level := .trace, message := "folded conversion",
        fields := [("from", .text u.display), ("to", .text o.state.display)] }
  | simplify {op : ArithOp} {o : Outcome} {how : Simplification} :
    o.answer = .simplification (some how) →
    Reports u (.simplify op) o
      { level := .debug, message := "identity rewrite",
        fields := [("op", .text op.tag), ("constant", .text u.display),
          ("rewrite", .text how.tag)] }

/-- The lines of a run from a constant: one for each step that folds, in the order of the steps, and
none for the others. -/
inductive Logs : Value → List Step → List Event.Line → Prop where
  | nil (u : Value) : Logs u [] []
  | fold {u : Value} {s : Step} {rest : List Step} {line : Event.Line} {lines : List Event.Line} :
    Folds s (step u s) → Reports u s (step u s) line → Logs (step u s).state rest lines →
    Logs u (s :: rest) (line :: lines)
  | skip {u : Value} {s : Step} {rest : List Step} {lines : List Event.Line} :
    ¬ Folds s (step u s) → Logs (step u s).state rest lines → Logs u (s :: rest) lines

/-- The outcome of a step shows one line at most. -/
theorem Reports.unique {u : Value} {s : Step} {o : Outcome} {line line' : Event.Line}
    (h : Reports u s o line) (h' : Reports u s o line') : line = line' := by
  cases h with
  | compare hc _ | test hc _ | ternary hc _ =>
    cases h'
    next hc' _ =>
      obtain rfl := Except.ok.inj (hc.symm.trans hc')
      rfl
  | convert _ _ =>
    cases h'
    rfl
  | simplify hs =>
    cases h'
    next hs' =>
      obtain rfl := Option.some.inj (Answer.simplification.inj (hs.symm.trans hs'))
      rfl

/-! ### Steps that compare -/

/-- The outcome of a step that compares, and answers a function of the outcome. -/
def compareWith (u other : Value) (unsigned : Bool) (answer : Condition → Answer) : Outcome :=
  ask u ((Fold.compare u other unsigned).map (.ofExcept answer))

theorem Answer.ofExcept_map {α β : Type} (f : β → Answer) (g : α → β) (r : Except KindError α) :
    ofExcept f (r.map g) = ofExcept (fun a => f (g a)) r := by
  cases r <;> rfl

theorem step_test (u : Value) (mask : Mask) (other : Value) (unsigned : Bool) :
    step u (.test mask other unsigned) =
      compareWith u other unsigned fun c => .flag (mask.apply c) := by
  simp only [step, Fold.test, compareWith, ask, Traced.map, Answer.ofExcept_map]

theorem step_ternary (u : Value) (comparator : ThreeWay) (other : Value) :
    step u (.ternary comparator other) =
      compareWith u other false fun c => .sign (comparator.apply c) := by
  simp only [step, Fold.ternary, compareWith, ask, Traced.map, Answer.ofExcept_map]

theorem compareWith_of_ok {u other : Value} {unsigned : Bool} {c : Condition}
    (h : u.compare other unsigned = .ok c) (answer : Condition → Answer) :
    compareWith u other unsigned answer =
      { answer := answer c, state := u, events := [.compared u other unsigned c] } := by
  rw [compareWith, Fold.compare, h]
  rfl

theorem compareWith_of_error {u other : Value} {unsigned : Bool} {e : KindError}
    (h : u.compare other unsigned = .error e) (answer : Condition → Answer) :
    compareWith u other unsigned answer = { answer := .failed e, state := u, events := [] } := by
  rw [compareWith, Fold.compare, h]
  rfl

/-! ### Steps that convert or simplify -/

theorem events_replace (v : Value) (next : Traced (Except KindError Value)) :
    (replace v next).events = next.events := by
  obtain ⟨result, events⟩ := next
  cases result <;> rfl

theorem step_convert_of_ok {u r : Value} {k : Kind} (h : u.convert k = .ok r) :
    step u (.convert k) = { answer := .done, state := r, events := [.converted u r] } := by
  rw [step, Fold.convert, h]
  rfl

theorem step_convert_of_error {u : Value} {k : Kind} {e : KindError} (h : u.convert k = .error e) :
    step u (.convert k) = { answer := .failed e, state := u, events := [] } := by
  rw [step, Fold.convert, h]
  rfl

theorem step_simplify_of_some {u : Value} {op : ArithOp} {how : Simplification}
    (h : simplify? op u = some how) :
    step u (.simplify op) =
      { answer := .simplification (some how), state := u, events := [.simplified op u how] } := by
  rw [step, Fold.simplify, h]
  rfl

theorem step_simplify_of_none {u : Value} {op : ArithOp} (h : simplify? op u = none) :
    step u (.simplify op) = { answer := .simplification none, state := u, events := [] } := by
  rw [step, Fold.simplify, h]
  rfl

/-! ### One step -/

/-- The events of a step are as its line demands: one event if the step folds, none otherwise; and
it folds if it can. -/
inductive Recorded (u : Value) (s : Step) (o : Outcome) : Prop where
  | folded {e : Event} :
    s.CanFold u → Folds s o → o.events = [e] → Reports u s o e.line → Recorded u s o
  | silent : ¬ s.CanFold u → ¬ Folds s o → o.events = [] → Recorded u s o

/-- A step that compares is recorded if an outcome is reported and a failure is none. -/
theorem recorded_compareWith {u other : Value} {s : Step} {unsigned : Bool}
    {answer : Condition → Answer}
    (hcan : s.CanFold u ↔ ∃ c, u.compare other unsigned = .ok c)
    (hfolds : ∀ o, Folds s o ↔ o.answer.isFailure = false)
    (hanswer : ∀ c, (answer c).isFailure = false)
    (hreports : ∀ o c, u.compare other unsigned = .ok c → o.answer = answer c →
      Reports u s o (comparisonLine u other unsigned c)) :
    Recorded u s (compareWith u other unsigned answer) := by
  cases h : u.compare other unsigned with
  | ok c =>
    rw [compareWith_of_ok h]
    exact .folded (hcan.mpr ⟨c, h⟩) ((hfolds _).mpr (hanswer c)) rfl (hreports _ c h rfl)
  | error e =>
    rw [compareWith_of_error h]
    refine .silent ?_ (fun hf => nomatch (hfolds _).mp hf) rfl
    intro hs
    obtain ⟨c, hc⟩ := hcan.mp hs
    exact nomatch h.symm.trans hc

theorem recorded_convert (u : Value) (k : Kind) :
    Recorded u (.convert k) (step u (.convert k)) := by
  have hcan := Value.exists_convert_iff u k
  cases h : u.convert k with
  | ok r =>
    rw [step_convert_of_ok h]
    exact .folded (hcan.mp ⟨r, h⟩) rfl rfl (.convert h rfl)
  | error e =>
    rw [step_convert_of_error h]
    refine .silent ?_ nofun rfl
    intro hs
    obtain ⟨r, hr⟩ := hcan.mpr hs
    exact nomatch h.symm.trans hr

theorem recorded_simplify (u : Value) (op : ArithOp) :
    Recorded u (.simplify op) (step u (.simplify op)) := by
  cases h : simplify? op u with
  | some how =>
    rw [step_simplify_of_some h]
    exact .folded (fun hs => nomatch h.symm.trans hs) nofun rfl (.simplify rfl)
  | none =>
    rw [step_simplify_of_none h]
    exact .silent (fun hs => hs h) (fun hf => hf rfl) rfl

/-- **Every step is recorded.** -/
theorem recorded_step (u : Value) (s : Step) : Recorded u s (step u s) := by
  cases s with
  | compare other unsigned =>
    exact recorded_compareWith (Value.exists_compare_iff u other unsigned).symm (fun _ => .rfl)
      (fun _ => rfl) fun _ _ => .compare
  | test mask other unsigned =>
    rw [step_test]
    exact recorded_compareWith (Value.exists_compare_iff u other unsigned).symm (fun _ => .rfl)
      (fun _ => rfl) fun _ _ => .test
  | ternary comparator other =>
    rw [step_ternary]
    exact recorded_compareWith (Value.exists_compare_iff u other false).symm (fun _ => .rfl)
      (fun _ => rfl) fun _ _ => .ternary
  | convert k => exact recorded_convert u k
  | simplify op => exact recorded_simplify u op
  | set w => exact .silent id id (events_replace u _)
  | zero k => exact .silent id id (events_replace u _)
  | _ => exact .silent id id rfl

/-- **The steps that fold are those that can.** Whether a comparison or a conversion succeeds
depends on the kinds alone. -/
theorem folds_step_iff (u : Value) (s : Step) : Folds s (step u s) ↔ s.CanFold u := by
  cases recorded_step u s with
  | folded hs hfolds _ _ => exact iff_of_true hfolds hs
  | silent hs hn _ => exact iff_of_false hn hs

/-! ### Runs -/

/-- The lines of a run are those of its log. The induction is on the steps, for every constant,
since the first of them may replace it. -/
theorem logs_iff (v : Value) (steps : List Step) (lines : List Event.Line) :
    Logs v steps lines ↔ lines = (log v steps).map Event.line := by
  induction steps generalizing v lines with
  | nil =>
    constructor
    · intro h
      cases h
      rfl
    · rintro rfl
      exact .nil v
  | cons s rest ih =>
    rw [log_cons]
    cases recorded_step v s with
    | folded _ hfolds hevents hreports =>
      rw [hevents]
      constructor
      · intro h
        cases h with
        | fold _ hline hrest => rw [hline.unique hreports, (ih _ _).mp hrest]; rfl
        | skip hn _ => exact absurd hfolds hn
      · rintro rfl
        exact .fold hfolds hreports ((ih _ _).mpr rfl)
    | silent _ hn hevents =>
      rw [hevents, List.nil_append, ← ih]
      constructor
      · intro h
        cases h with
        | fold hfolds _ _ => exact absurd hfolds hn
        | skip _ hrest => exact hrest
      · intro hrest
        exact .skip hn hrest

/-- **The log of a run records what was folded, and nothing else.** It has one line for each step
that folds, in the order of the steps, with the constants before and after the step and the outcome
that the answer is made of; and the steps that fold are known from the kinds, or from the laws of
the constant. -/
theorem run_log (v : Value) (steps : List Step) :
    (∀ lines, Logs v steps lines ↔ lines = (log v steps).map Event.line) ∧
      ∀ u s, Folds s (step u s) ↔ s.CanFold u :=
  ⟨logs_iff v steps, folds_step_iff⟩

/-- An integer is not compared with a double before it is converted to one, and a condition never
is. -/
example : ((log (.int32 5#32)
    [.compare (.float64 (.zero _)) false, .convert .float64, .test .gt (.float64 (.zero _)) true,
      .convert .cond, .set (.cond .eq), .ternary .nanLow (.cond .eq)]).map
        fun e => (e.message, e.fields.getLast?)) =
    [("folded conversion", some ("to", .text "5.0")),
      ("folded compare", some ("result", .text "gt"))] := by
  decide +kernel

end Cell

end ConstFold
