import Predictive.Parse.Machine
import Predictive.Trace.Tokens

/-!
# Records of parsing

The machine logs each token it matches, each rule it expands and each node it drops, among the
records of the tokens as they are read, and at the end the tree.
-/

namespace Predictive

namespace Parse.Machine

/-- The record of closing the innermost node: it is dropped if it is not the root and has no
children. -/
def closeRecords (m : Machine) : List Record :=
  match m.nodes with
  | node :: _ :: _ =>
    if node.children.isEmpty then
      [{ level := .trace, message := s!"dropped empty {node.name}" }]
    else []
  | _ => []

/-- The records of one step with a lookahead token. -/
def stepRecords (g : Grammar) (t : Token) (m : Machine) : List Record :=
  match m.stack with
  | .close :: _ => m.closeRecords
  | .expect (.terminal name id) :: _ =>
    if t.name = name ∧ id ≠ 0 then
      [{ level := .trace, message := s!"matched {t.text} on line {t.line}" }]
    else []
  | .expect (.rule _ id) :: _ =>
    match (g.terminalNumber? t.name).bind (g.choice? id) with
    | some a => [{ level := .trace, message := s!"expand {a.listing} on {t.text}" }]
    | none => []
  | _ => []

/-- The records of `settle`. -/
def settleRecords (g : Grammar) (t : Token) : Nat → Machine → List Record
  | 0, _ => []
  | steps + 1, m =>
    m.stepRecords g t ++
      match m.step g t with
      | .inl next => settleRecords g t steps next
      | .inr _ => []

/-- The records of `closeNodes`. -/
def closeNodesRecords (m : Machine) : Nat → List Record
  | 0 => []
  | n + 1 => m.closeRecords ++ m.closeNode.closeNodesRecords n

/-- The records of `result`. -/
def resultRecords (m : Machine) : List Record :=
  m.closeNodesRecords m.nodes.length ++
    match m.result with
    | .ok root =>
      let name := Text.quoted root.name
      [{ level := .debug
         message := s!"parsed {name}: {root.children.length} top-level children" }]
    | .error _ => []

end Parse.Machine

/-- The records of `Parse.run`. -/
def Parse.runRecords {σ : Type} [RecordedStream σ] (g : Grammar) (taskBound : Nat) :
    Nat → Machine → Token → σ → List Record
  | 0, _, _, _ => []
  | rounds + 1, m, t, stream =>
    m.settleRecords g t (m.bound taskBound) ++
      match m.settle g t (m.bound taskBound) with
      | some (.accept m) => m.resultRecords
      | some (.read m) =>
        RecordedStream.nextRecords stream ++
          match TokenStream.next stream with
          | (.ok t, stream) => runRecords g taskBound rounds m t stream
          | (.error _, _) => []
      | _ => []

/-- The records of `Grammar.parseTokens`. -/
def Grammar.parseTokensRecords {σ : Type} [RecordedStream σ] (g : Grammar) (stream : σ) :
    List Record :=
  let taskBound := Parse.Machine.taskBound g
  RecordedStream.nextRecords stream ++
    match TokenStream.next stream with
    | (.error _, _) => []
    | (.ok t, stream) =>
      let rounds := TokenStream.remaining stream + 1
      Parse.runRecords g taskBound rounds (.start g) t stream ++
        match Parse.run g taskBound rounds (.start g) t stream with
        | .more m t stream => Parse.runRecords g taskBound (m.bound taskBound) m t stream
        | _ => []

end Predictive
