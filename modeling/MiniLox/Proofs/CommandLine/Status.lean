import MiniLox.Proofs.CommandLine.Invocation
import MiniLox.Proofs.Session.Endings

/-!
# Exit statuses

A script that can be read ends with an exit status, whatever its octets are.  The status is
that of a file which is no text, or that of the way in which the run of the text ends.
-/

namespace MiniLox

open Session (Ending EndsIn)

/-- The exit status of a script whose run ends in a way. -/
def Session.Ending.status : Ending → Nat
  | .lexical => 70
  | .syntactic => 70
  | .failed => 65
  | .completed => 0

namespace CommandLine

variable {mode : Mode} {stream : Stream} {disk : Disk} {env : Environment} {path source : String}

theorem runScript_of_text (h : readText disk path = .ok source) :
    Response.ofOutcome stream (runScript disk mode path env) =
      .of stream (Session.run mode source env).events none
        (Session.run mode source env).result := by
  have hscript : runScript disk mode path env =
      (Session.run mode source >>= fun _ => pure none) env := by
    rw [runScript, h]
    rfl
  rw [hscript, ofOutcome_bind_none]

theorem runScript_of_no_text {cause : InputFault} (h : readText disk path = .error cause) :
    Response.ofOutcome stream (runScript disk mode path env) =
      .ofError stream (.input cause) := by
  rw [runScript, h]
  rfl

/-- The response to a run ends with the exit status of the way in which the run does. -/
theorem ending_of_endsIn {level : Nat} {o : Outcome Error Unit} {ending : Ending}
    (h : EndsIn level source env o ending) (writing : Option Writing) :
    (Response.of stream o.events writing o.result).ending = .ok ending.status := by
  cases ending with
  | lexical =>
      obtain ⟨-, rfl⟩ := h
      have hplain : (Error.scan (1 + Lexer.lineEnds source.toList)).message.isPlain :=
        Text.isPlain_ofString _
      simp only [Response.of, conclude, showLast_of_isPlain stream _ hplain]
      rfl
  | syntactic =>
      obtain ⟨-, _, rfl⟩ := h
      rfl
  | failed =>
      obtain ⟨_, _, fault, _, -, hfails, hresult, hkind, -, hline⟩ := h
      have hconclude := conclude_fault stream hkind (hfails.isPlain_message hkind hline)
      simp only [Response.of, hresult, hconclude, Ending.status]
  | completed =>
      simp only [Response.of, h.2, Ending.status]

/-- A script that is no text, and the script `-nil;`. -/
def failingScripts : Files :=
  [(["text.lox"], [0xFF]), (["minus.lox"], [0x2D, 0x6E, 0x69, 0x6C, 0x3B])]

end CommandLine

end MiniLox
