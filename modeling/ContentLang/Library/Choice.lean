import ContentLang.Evaluator
import ContentLang.Number.Decimal
import ContentLang.Random.Sampling
import ContentLang.Text.Blank
import ContentLang.Text.Fingerprint

/-!
# Choices

`Choose(list, options...)` picks a member of a list, each with the same chance;
`ChooseWeighted(list, options...)` goes by the weights of the members, which are blocks with a
`Weight` entry or weigh one. Both are late: each time content is consumed they pick anew.

Options are tokens. `Static` asks for the host's static generator, `Flatten` puts the
value of a member that is left with one entry in place of the block, and anything else
is a seed: a whole number, or a name whose fingerprint is one. A static choice without a
seed takes one from the identity of the call.
-/

namespace ContentLang

namespace Library

/-- The key of a member's weight. -/
def weightKey : String := "Weight"

/-- The option that unwraps members left with one entry. -/
def flattenOption : String := "Flatten"

/-- The option for the static generator. -/
def staticOption : String := "Static"

/-- The options of a choice. -/
structure ChoiceOptions where
  flatten : Bool
  isStatic : Bool
  seed : Option UInt64

namespace ChoiceOptions

/-- The options of a choice that has none. -/
def none : ChoiceOptions := ⟨false, false, .none⟩

/-- A seed as it is spelled: a whole number of 64 bits, its sign in the topmost one, or
a name. -/
def seedOf (s : String) : UInt64 :=
  match readInteger? .signed64 s.toList with
  | some n => (Int64.ofInt n).toUInt64
  | .none => fingerprint s

/-- Takes one option. Of several seeds the last one counts. -/
def take (o : ChoiceOptions) (t : Token) : ChoiceOptions :=
  if t.value = flattenOption then { o with flatten := true }
  else if t.value = staticOption then { o with isStatic := true }
  else { o with seed := some (seedOf t.value) }

/-- The options that tokens spell, for the call with the given identity. -/
def ofTokens (uid : String) (ts : List Token) : ChoiceOptions :=
  let o := ts.foldl take none
  if o.isStatic && o.seed.isNone then { o with seed := some (fingerprint uid) } else o

end ChoiceOptions

/-- The members and the options of a choice, of which there is at least one member. -/
def withMembers (ev : Evaluator) (call : Call) (ctx : Context)
    (f : Node → List Node → ChoiceOptions → Walk Outcome) : Walk Outcome :=
  Evaluator.withFirst call (.atLeast 1) fun list options =>
    (ev.members call list ctx).given fun members =>
      (ev.requireTokens ctx options).given fun tokens =>
        match members with
        | [] => Evaluator.invalidArgument call list .nothingToChoose
        | _ :: _ => f list members (.ofTokens call.origin.uid tokens)

/-- Picks a member, each with the same chance. -/
def choose : Function :=
  .forgetful true fun ev call ctx =>
    withMembers ev call ctx fun _ members options => do
      let i ← ev.sample options.seed options.isStatic (uniformIndex members.length ev.limit)
      match members[i]? with
      | some member => ev.reduce member ctx
      | none => return .error call.origin

/-- A member without the entry under a key; with `flatten`, the value of the only entry
that is left. -/
def strip (key : String) (flatten : Bool) : Node → Node
  | .block es o =>
    match flatten, Entries.erase es (.key key) with
    | true, [e] => e.2
    | _, es => .block es o
  | node => node

/-- The value of a member's entry under a key, if the member is a block that has one. -/
def memberEntry (key : String) (node : Node) : Option Node :=
  node.entries?.bind fun es => Entries.get? es (.key key)

/-- The weight that a token spells, if it is a finite number that is not negative. -/
def weight? (s : String) : Option Float :=
  match readFloat? (trim s.toList) with
  | some x => if x.isFinite && x ≥ 0.0 then some x else none
  | none => none

/-- The weight that a token spells, or one. -/
def weightOf (t : Token) : Walk Float := do
  match weight? t.value with
  | some x => return x
  | none =>
    Walk.remarkAt .warn t.origin.location
      ("invalid weight `" ++ t.value ++ "`, using 1 instead")
    return 1.0

/-- The weights of members, unless one is pending. -/
def weights (ev : Evaluator) (ctx : Context) : List Node → Walk (Except Outcome (List Float))
  | [] => return .ok []
  | n :: ns => do
    match memberEntry weightKey n with
    | none => (weights ev ctx ns).also fun xs => return .ok (1.0 :: xs)
    | some node =>
      match ← ev.requireToken node ctx with
      | .ok t =>
        let x ← weightOf t
        (weights ev ctx ns).also fun xs => return .ok (x :: xs)
      | .error .pending => return .error .pending
      | .error _ => (weights ev ctx ns).also fun xs => return .ok (1.0 :: xs)

/-- The index of a member picked by weight. -/
def pickWeighted (ev : Evaluator) (options : ChoiceOptions) (w : Weighted) : Walk Nat :=
  ev.sample options.seed options.isStatic fun g => some (w.index g.value, g.advance)

/-- Picks a member by weight. -/
def chooseWeighted : Function :=
  .forgetful true fun ev call ctx =>
    withMembers ev call ctx fun list members options =>
      (weights ev ctx members).given fun xs =>
        match xs with
        | [] => Evaluator.invalidArgument call list .nothingToChoose
        | x :: xs => do
          let w := Weighted.ofWeights x xs
          if w.total == 0.0 then Evaluator.invalidArgument call list .weightless
          else if w.total.isInf then Walk.halt .infiniteWeight
          else
            let i ← pickWeighted ev options w
            match members[i]? with
            | some member => ev.reduce (strip weightKey options.flatten member) ctx
            | none => return .error call.origin

end Library

end ContentLang
