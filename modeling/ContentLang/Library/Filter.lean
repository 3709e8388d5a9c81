import ContentLang.Library.Choice

/-!
# Filters

`FilterByCondition(list)` keeps the members of a list whose `Condition` holds, and those
that have none. The answers of the host are remembered for the call, so that it can be
told later whether the filter would now keep other members.
-/

namespace ContentLang

namespace Library

/-- The key of a member's condition. -/
def conditionKey : String := "Condition"

/-- Whether a member is kept, and the answer that decides it; nothing for a member
without a condition. -/
def admits (ev : Evaluator) (ctx : Context) (member : Node) :
    Walk (Except Outcome (Option Bool)) :=
  match memberEntry conditionKey member with
  | none => return .ok none
  | some node =>
    (ev.requireToken node ctx).also fun condition => do
      match ← Walk.askCondition ev.host condition.value with
      | some answer => return .ok (some answer)
      | none => return .error .pending

/-- The members kept, reduced, and the answers that decided. -/
def keepMembers (ev : Evaluator) (ctx : Context) (flatten : Bool) :
    List Node → Walk (Except Outcome (List Node × List Bool))
  | [] => return .ok ([], [])
  | n :: ns =>
    (admits ev ctx n).also fun answer => do
      if answer = some false then
        (keepMembers ev ctx flatten ns).also fun r => return .ok (r.1, false :: r.2)
      else
        match (← ev.reduce (strip conditionKey flatten n) ctx).toItems? with
        | none => return .error .pending
        | some items =>
          (keepMembers ev ctx flatten ns).also fun r =>
            return .ok (items ++ r.1, answer.toList ++ r.2)

/-- The answers that the members of a list would give now, if the conditions are there
to be read and all are answered. -/
def currentAnswers (host : Host) : List Node → Option (List Bool) × List Note
  | [] => (some [], [])
  | n :: ns =>
    match memberEntry conditionKey n with
    | none => currentAnswers host ns
    | some (.token t) =>
      let notes := Walk.questionNotes host (.condition t.value)
      match host.condition t.value with
      | none => (none, notes)
      | some answer =>
        let (rest, more) := currentAnswers host ns
        (rest.map (answer :: ·), notes ++ more)
    | some _ => (none, [])

/-- Keeps members whose conditions hold. -/
def filter : Function where
  late := true
  reduce ev call ctx :=
    Evaluator.withFirst call (.between 1 2) fun list options =>
      (ev.members call list ctx).given fun members =>
        (ev.requireTokens ctx options).given fun tokens =>
          let flatten := tokens.any (·.value == flattenOption)
          (keepMembers ev ctx flatten members).given fun r => do
            Walk.remember call.function call.origin.uid r.2
            return .value (.array r.1 call.origin)
  wouldChange host memory call :=
    match Entries.get? memory (call.function, call.origin.uid), call.params with
    | some last, .array items _ :: _ =>
      let (current, notes) := currentAnswers host items
      (current != some last, notes)
    | _, _ => (false, [])

end Library

end ContentLang
