import Folio.Markup.Block.Outline
import Folio.Markup.Token.Lexer

namespace Folio.Markup.Document

def ofTokens (ts : List Token) : Except ParseError Document :=
  match readAll ts with
  | .ok blocks => .ok ⟨blocks⟩
  | .error f => .error (f.locate ts)

theorem ofTokens_eq_ok_iff {ts : List Token} {d : Document} :
    ofTokens ts = .ok d ↔ readAll ts = .ok d.blocks := by
  obtain ⟨blocks⟩ := d
  unfold ofTokens
  split <;> next h => simp [h]

theorem ofTokens_eq_error_iff {ts : List Token} {e : ParseError} :
    ofTokens ts = .error e ↔ ∃ f, readAll ts = .error f ∧ f.locate ts = e := by
  unfold ofTokens
  split <;> next h => simp [h]

def parse (source : String) : Except ParseError Document :=
  ofTokens (lex source)

end Folio.Markup.Document
