import Predictive.Record
import Predictive.Token.Tape
import Predictive.Token.Tokenizer

/-!
# Records of reading tokens

A tokenizer logs what it reads from its input: the pieces it discards and the tokens it gives, but
not the end-of-input token, nor a token that is given again.
-/

namespace Predictive

/-- A token stream that logs what it reads. -/
class RecordedStream (σ : Type) extends TokenStream σ where
  /-- The records of taking the next token. -/
  nextRecords : σ → List Record

/-- The record of a piece that is discarded. -/
def Token.skippedRecord (t : Token) : Record where
  level := .trace
  message :=
    let lexeme := Text.quoted t.lexeme
    s!"skipped {lexeme} on line {t.line}"

/-- The record of a token just read. -/
def Token.readRecord (t : Token) : Record where
  level := .trace
  message := s!"token {t.text} on line {t.line}"

/-- The records of what a scanner gives in one go. -/
def Scan.records (s : Scan) : List Record :=
  s.skipped.map (·.skippedRecord) ++
    match s.outcome with
    | .ok t => if t.lexeme.isEmpty then [] else [t.readRecord]
    | .error _ => []

namespace Tokenizer

/-- The records of `next`. -/
def nextRecords (t : Tokenizer) : List Record :=
  match t.ahead with
  | _ :: _ => []
  | [] => t.scan.records

/-- The records of `collect`. -/
def collectRecords (t : Tokenizer) : List Record :=
  t.nextRecords ++
    match _h : t.next with
    | (.error _, _) => []
    | (.ok token, next) => if _hn : token.name = t.config.eof then [] else next.collectRecords
termination_by t.remaining
decreasing_by exact remaining_next (by assumption) (by assumption)

end Tokenizer

instance : RecordedStream Tokenizer where
  nextRecords := Tokenizer.nextRecords

instance : RecordedStream TokenTape where
  nextRecords _ := []

end Predictive
