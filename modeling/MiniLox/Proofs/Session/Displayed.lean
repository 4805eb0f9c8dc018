import MiniLox.Proofs.Lexing.LongestMatch
import MiniLox.Proofs.Numeric.Displayed
import MiniLox.Proofs.Session.Joining

/-!
# Displayed numbers as sources

A session can be given the text that it has shown for a number.  With a semicolon behind it this
text is a source: one number, with a minus in front if the number has one.  Nothing goes wrong
when it is run, and its value is the number that was shown, the sign of a zero included.
-/

namespace MiniLox

open Grammar Decimal

/-! ## Digits with a point among them -/

namespace Lexer

variable {c : Char} {line : Nat} {rest whole fraction after : List Char}

theorem isLexeme_numeral (hwhole : IsWhole whole) (hfraction : ∀ d ∈ fraction, d.isDigit) :
    IsLexeme line (whole ++ pointed fraction)
      ⟨.number, String.ofList (whole ++ pointed fraction), some (singleOf whole fraction),
        some line⟩ := by
  have hdigits := hwhole.isDigit
  obtain ⟨c, rest, rfl, -⟩ := hwhole.exists_eq_cons
  cases fraction with
  | nil =>
      rw [pointed, List.append_nil]
      exact .whole (List.cons_ne_nil _ _) hdigits
  | cons => exact .fraction (List.cons_ne_nil _ _) hdigits (List.cons_ne_nil _ _) hfraction

/-- A number ends where something follows that is neither a digit nor a point. -/
theorem cut_digit_append (hc : c.isDigit)
    (hafter : ∀ d ∈ after.head?, d.isDigit = false ∧ d ≠ '.') :
    cut c (rest ++ after) = cut c rest := by
  have hrest : rest ++ [] = rest := List.append_nil rest
  have hle : numberLength (rest ++ []) ≤ rest.length := by
    rw [hrest]
    exact numberLength_le rest
  rw [cut_digit hc, cut_digit hc, numberLength_append_eq hle hafter, hrest]

theorem lineEnds_numeral (hwhole : IsWhole whole) (hfraction : ∀ d ∈ fraction, d.isDigit) :
    lineEnds (whole ++ pointed fraction) = 0 := by
  have hnot {digits : List Char} (h : ∀ d ∈ digits, d.isDigit) : '\n' ∉ digits :=
    fun hmem => absurd (h _ hmem) (by decide)
  apply List.count_eq_zero.mpr
  rw [List.mem_append]
  rintro (hmem | hmem)
  · exact hnot hwhole.isDigit hmem
  · cases fraction with
    | nil => cases hmem
    | cons d more =>
        rcases List.mem_cons.mp hmem with hpoint | hmem
        · cases hpoint
        · exact hnot hfraction hmem

/-- Digits with a point among them are one piece, and its token is a number. -/
theorem pieces_numeral (hwhole : IsWhole whole) (hfraction : ∀ d ∈ fraction, d.isDigit)
    (hafter : ∀ d ∈ after.head?, d.isDigit = false ∧ d ≠ '.') :
    ∃ p, pieces line (whole ++ pointed fraction ++ after) = p :: pieces line after ∧
      p.outcome = .ok ⟨.number, String.ofList (whole ++ pointed fraction),
        some (singleOf whole fraction), some line⟩ := by
  have hends := lineEnds_numeral hwhole hfraction
  have hlexeme : IsLexeme line (whole ++ pointed fraction) _ := isLexeme_numeral hwhole hfraction
  obtain ⟨c, rest, htext, hlength, houtcome⟩ := outcome_of_isLexeme hlexeme
  have hc : c.isDigit := by
    obtain ⟨first, others, rfl, hfirst⟩ := hwhole.exists_eq_cons
    exact (List.cons.inj htext).1 ▸ hfirst
  have hfront : front line c (rest ++ after) = front line c rest := by
    rw [front, front, cut_digit_append hc hafter, hlength, List.take_left, List.take_length]
  have hbehind : behind c (rest ++ after) = after := by
    rw [behind, cut_digit_append hc hafter, hlength, List.drop_left]
  have hline : (front line c rest).endLine = line := by
    rw [Piece.endLine, front, hlength, List.take_length, ← htext, hends]
    rfl
  refine ⟨front line c rest, ?_, houtcome⟩
  rw [htext, List.cons_append, pieces_cons, hfront, hbehind, hline]

theorem pieces_minus (line : Nat) (rest : List Char) :
    pieces line ('-' :: rest) = ⟨.fixed .minus, ['-'], line⟩ :: pieces line rest := by
  rw [pieces_cons]
  rfl

theorem pieces_semicolon (line : Nat) :
    pieces line [';'] = [⟨.fixed .semicolon, [';'], line⟩] := by
  rw [pieces_cons, behind, List.drop_nil, pieces]
  rfl

end Lexer

/-! ## The text of a number as a source -/

namespace Number

variable {negative : Bool} {m : Magnitude}

/-- The text of a number with a semicolon behind it. -/
def source (n : Number) : String := n.display ++ ";"

/-- The token of a number without a minus. -/
def numeral (m : Magnitude) : Token :=
  ⟨.number, (finite false m).display, some (.number (finite false m)), some 1⟩

/-- A minus in front of a number. -/
def minus : Token := Token.simple .minus (some 1)

/-- The tokens of the text of a number: that of a number, or a minus and that of a number. -/
def displayTokens (negative : Bool) (m : Magnitude) : List Token :=
  if negative then [minus, numeral m] else [numeral m]

/-- The expression that the text of a number is read as. -/
def displayExpr (negative : Bool) (m : Magnitude) : Expr :=
  if negative then .unary minus (.literal (.number (finite false m)))
  else .literal (.number (finite false m))

theorem finite_false_isSingle (hsingle : (finite negative m).IsSingle) :
    (finite false m).IsSingle := by
  cases negative with
  | false => exact hsingle
  | true => exact hsingle.neg

/-- The text of a number without a minus is one piece, and its token is the number. -/
theorem pieces_display (hsingle : (finite false m).IsSingle) :
    ∃ p, Lexer.pieces 1 (finite false m).source.toList = [p, ⟨.fixed .semicolon, [';'], 1⟩] ∧
      p.outcome = .ok (numeral m) ∧ Lexer.lineEnds (finite false m).source.toList = 0 := by
  obtain ⟨whole, fraction, htext, hwhole, hfraction, hvalue⟩ := exists_display_eq hsingle
  have hafter : ∀ d ∈ [';'].head?, d.isDigit = false ∧ d ≠ '.' := by
    rintro _ ⟨⟩
    decide
  obtain ⟨p, hpieces, houtcome⟩ :
      ∃ p, Lexer.pieces 1 _ = p :: Lexer.pieces 1 [';'] ∧ p.outcome = .ok _ :=
    Lexer.pieces_numeral hwhole hfraction hafter
  have hnumeral : String.ofList (whole ++ pointed fraction) = (finite false m).display := by
    rw [← htext, String.ofList_toList]
  have hliteral : Lexer.singleOf whole fraction = .number (finite false m) :=
    congrArg Value.number hvalue
  rw [hnumeral, hliteral] at houtcome
  rw [Lexer.pieces_semicolon, ← htext] at hpieces
  refine ⟨p, ?_, houtcome, ?_⟩
  · rw [source, String.toList_append]
    exact hpieces
  · rw [source, String.toList_append, Lexer.lineEnds_append, htext,
      Lexer.lineEnds_numeral hwhole hfraction]
    rfl

/-- The text of a number with a semicolon is scanned as a number, perhaps with a minus. -/
theorem scan_source (hsingle : (finite negative m).IsSingle) :
    Lexer.scan (finite negative m).source =
      ⟨displayTokens negative m ++
        [Token.simple .semicolon (some 1), ⟨.endOfInput, "", none, some 1⟩], [], 1⟩ := by
  obtain ⟨p, hpieces, houtcome, hends⟩ := pieces_display (finite_false_isSingle hsingle)
  have htoken : p.token? = some (numeral m) := by rw [Piece.token?, houtcome]; rfl
  have herror : p.error? = none := by rw [Piece.error?, houtcome]
  cases negative with
  | false =>
      rw [Lexer.scan, hpieces, hends]
      simp only [List.filterMap_cons, htoken, herror]
      rfl
  | true =>
      have hsource : (finite true m).source.toList = '-' :: (finite false m).source.toList := by
        rw [source, source, display_finite_true, String.append_assoc, String.toList_append]
        rfl
      have hends' : Lexer.lineEnds ('-' :: (finite false m).source.toList) = 0 := by
        rw [Lexer.lineEnds_cons, hends]
        rfl
      rw [Lexer.scan, hsource, Lexer.pieces_minus, hpieces, hends']
      simp only [List.filterMap_cons, htoken, herror]
      rfl

/-- The derivation of the text of a number: a statement with no operator but a minus. -/
def displayTree (negative : Bool) (m : Magnitude) : Tree .program :=
  let literal : Tree (.operand 0) := .primary (.literal ⟨numeral m, List.mem_cons_self⟩)
  let operand := if negative then .unary ⟨minus, by decide⟩ literal else literal
  let value : Tree .expression :=
    .expression (.equality (.chain (.chain (.chain (.chain operand .stop) .stop) .stop) .stop))
  .more (.statement (.evaluate value ⟨Token.simple .semicolon (some 1), by decide⟩)) .nothing

theorem meaning_displayTree (negative : Bool) (m : Magnitude) :
    (displayTree negative m).meaning = [.expression (displayExpr negative m)] := by
  cases negative <;> rfl

/-- The text of a number with a semicolon is the statement of an expression. -/
theorem isProgram_source (hsingle : (finite negative m).IsSingle) :
    IsProgram (finite negative m).source [.expression (displayExpr negative m)] := by
  rw [IsProgram, scan_source hsingle]
  refine ⟨rfl, ?_⟩
  rw [← meaning_displayTree]
  apply parse_of_tree
  cases negative <;> rfl

theorem quiet_displayExpr (mode : Mode) (env : Environment) :
    Quiet (Evaluation.evaluate mode (displayExpr negative m).node env) env
      (.ok (.number (finite negative m))) := by
  cases negative with
  | false => exact Quiet.pure _
  | true =>
      have hplain : ∀ n : Number,
          (minus.mark.lexeme.display ++ (Value.number (finite false m)).display ++ " -> " ++
            (Value.number n).display).isPlain := by
        intro n
        simp only [Text.isPlain_append, Bool.and_eq_true]
        exact ⟨⟨⟨rfl, Text.isPlain_ofString _⟩, rfl⟩, Text.isPlain_ofString _⟩
      exact (Quiet.pure _).bind_ok ((Quiet.lift (.ok _)).bind_ok
        ((Quiet.trace_of_isPlain mode 3 (hplain _)).bind_ok (Quiet.pure _)))

end Number

/-! ## Running the text of a number -/

namespace Session

variable {mode : Mode} {env : Environment}

/-- A source without errors is run for the value of its last statement. -/
theorem evaluate_of_isProgram {source : String} {p : Program} (h : IsProgram source p) :
    evaluate mode source = (Evaluation.executeAll mode (Stmt.nodes p)).mapError .fault := by
  obtain ⟨hscan, hparse⟩ := h
  have htokens : tokens source = pure (Lexer.scan source).tokens := by
    rw [tokens, hscan]
    rfl
  rw [evaluate, htokens, pure_bind, hparse]

variable {e : Node} {v : Value}

theorem quiet_executeAll (h : Quiet (Evaluation.evaluate mode e env) env (.ok v)) :
    Quiet (Evaluation.executeAll mode [.expression e] env) env (.ok v) := by
  rw [Evaluation.executeAll, List.foldlM_cons]
  exact ((Quiet.trace_of_isPlain mode 1 (Text.isPlain_ofString _)).bind_ok h).bind_ok (Quiet.pure v)

/-- The value of an expression is shown when the expression stands alone in a program. -/
theorem execute_expression (h : Quiet (Evaluation.evaluate mode e env) env (.ok v))
    (hplain : v.display.isPlain) :
    outputs (execute mode [.expression e] env).events = [v.display] ∧
      (execute mode [.expression e] env).environment = env ∧
      (execute mode [.expression e] env).result = .ok () := by
  have hstep : Quiet (Evaluation.step mode (.expression e) env) env (.ok v) :=
    (Quiet.trace_of_isPlain mode 1 (Text.isPlain_ofString _)).bind_ok h
  have hexecute : Evaluation.execute mode [.expression e] env =
      ⟨(Evaluation.step mode (.expression e) env).events ++ [.output v.display], env, .ok ()⟩ := by
    have hline : (Event.output v.display).line.isPlain := hplain
    rw [Evaluation.execute, Action.bind_ok hstep.result, hstep.environment, Action.output,
      Action.put_plain mode hline]
    rfl
  rw [execute, Action.mapError, hexecute]
  refine ⟨?_, rfl, rfl⟩
  rw [outputs_append, hstep.output]
  rfl

end Session

/-- The text that is shown for a number, read as a source. -/
structure IsReadBack (mode : Mode) (env : Environment) (negative : Bool) (m : Magnitude) :
    Prop where
  /-- There is no exponent in the text, only a minus, digits, and a point with digits behind. -/
  text : ∃ whole fraction,
    (Number.finite negative m).display.toList =
        (if negative then ['-'] else []) ++ (whole ++ pointed fraction) ∧
      IsWhole whole ∧ ∀ c ∈ fraction, c.isDigit
  /-- It is scanned as one number, with a minus in front if the number has one. -/
  scan : Lexer.scan (Number.finite negative m).source =
    ⟨Number.displayTokens negative m ++
      [Token.simple .semicolon (some 1), ⟨.endOfInput, "", none, some 1⟩], [], 1⟩
  /-- It is read as a literal, to which the minus is applied. -/
  parse : Program.parse (Lexer.scan (Number.finite negative m).source).tokens =
    ([.expression (Number.displayExpr negative m)], [])
  /-- Its value is the number, and nothing else comes of it. -/
  evaluate : Quiet (Session.evaluate mode (Number.finite negative m).source env) env
    (.ok (.number (.finite negative m)))
  /-- When it is run, the same text is shown again. -/
  run : let o := Session.run mode (Number.finite negative m).source env
    outputs o.events = [(Number.finite negative m).display] ∧ o.environment = env ∧
      o.result = .ok ()

/-- What is shown for a finite number of 32 bits is a source with the number for its value. -/
theorem display_reads_back {negative : Bool} {m : Magnitude}
    (hsingle : (Number.finite negative m).IsSingle) (mode : Mode) (env : Environment) :
    IsReadBack mode env negative m := by
  have hprogram := Number.isProgram_source hsingle
  have hquiet : Quiet (Evaluation.evaluate mode (Number.displayExpr negative m).node env) env _ :=
    Number.quiet_displayExpr mode env
  constructor
  · obtain ⟨whole, fraction, htext, hwhole, hfraction, -⟩ :=
      Number.exists_display_eq (Number.finite_false_isSingle hsingle)
    refine ⟨whole, fraction, ?_, hwhole, hfraction⟩
    rw [← htext]
    cases negative with
    | false => rfl
    | true =>
        rw [Number.display_finite_true, String.toList_append]
        rfl
  · exact Number.scan_source hsingle
  · exact hprogram.2
  · rw [Session.evaluate_of_isProgram hprogram]
    exact (Session.quiet_executeAll hquiet).mapError Error.fault
  · dsimp only
    rw [Session.run_of_isProgram hprogram]
    exact Session.execute_expression hquiet (Text.isPlain_ofString _)

/-- The least magnitude of 32 bits. -/
def leastSingle : Magnitude := ⟨0x36a0000000000000, by decide +kernel⟩

theorem display_reads_back_leastSingle :
    (Number.finite true leastSingle).IsSingle ∧
      (Number.finite true leastSingle).display =
        "-0.000000000000000000000000000000000000000000001" ∧
      IsReadBack (.utf8 3) .empty true leastSingle := by
  have hsingle : (Number.finite true leastSingle).IsSingle := by decide +kernel
  exact ⟨hsingle, by decide +kernel, display_reads_back hsingle (.utf8 3) .empty⟩

end MiniLox
