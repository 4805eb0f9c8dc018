import MiniLox.Proofs.Recovery.Failing

/-!
# Phrases that break off

Where a declaration cannot be read, some of its rules are under way and the innermost of
them misses something.  A `Frame` is a rule under way, with the parts of it that have been
read; a `Gap` is what the innermost rule misses; and a `Broken` phrase is a gap inside of
any number of frames.

The tokens of a broken phrase are those that have been read, up to the gap.  The tokens
behind it are refused if none of the rules under way can go on with the first of them.
Every broken phrase is the beginning of some phrase.
-/

namespace MiniLox

namespace Grammar

open MiniLox.Parser

/-! ## Rules under way -/

/-- A rule of the first symbol, up to a part of the second one that has not been read to
its end. -/
inductive Frame : Symbol → Symbol → Type where
  | declaration : Frame .program .declaration
  | declarations (first : Tree .declaration) : Frame .program .program
  | define (word : Terminal [.varWord]) (target : Terminal [.identifier])
      (sign : Terminal [.equal]) : Frame .declaration .expression
  | statement : Frame .declaration .statement
  | print (word : Terminal [.printWord]) : Frame .statement .expression
  | block (opening : Terminal [.leftBrace]) : Frame .statement .program
  | evaluate : Frame .statement .expression
  | expression : Frame .expression .assignment
  | assign (target : Terminal [.identifier]) (sign : Terminal [.equal]) :
      Frame .assignment .assignment
  | equality : Frame .assignment (.operand topLevel)
  | operand {below : Nat} : Frame (.operand (below + 1)) (.operand below)
  | operators {below : Nat} (first : Tree (.operand below)) :
      Frame (.operand (below + 1)) (.operators below)
  | right {below : Nat} (operator : Terminal (operatorsAt (below + 1))) :
      Frame (.operators below) (.operand below)
  | next {below : Nat} (operator : Terminal (operatorsAt (below + 1)))
      (second : Tree (.operand below)) : Frame (.operators below) (.operators below)
  | unary (operator : Terminal unaryOperators) : Frame (.operand 0) (.operand 0)
  | primary : Frame (.operand 0) .primary
  | grouping (opening : Terminal [.leftParen]) : Frame .primary .expression

namespace Frame

variable {s part : Symbol}

/-- The tokens in front of the part. -/
def tokens : Frame s part → List Token
  | .declarations first => first.tokens
  | .define word target sign => [word.token, target.token, sign.token]
  | .print word => [word.token]
  | .block opening => [opening.token]
  | .assign target sign => [target.token, sign.token]
  | .operators first => first.tokens
  | .right operator => [operator.token]
  | .next operator second => operator.token :: second.tokens
  | .unary operator => [operator.token]
  | .grouping opening => [opening.token]
  | .declaration | .statement | .evaluate | .expression | .equality | .operand | .primary => []

/-- Whether the part is looked for at the front of some tokens.  At the end of a block no
declaration is, and an expression is no statement where another rule applies. -/
def Admits (tokens : List Token) : Frame s part → Prop
  | .declaration => tokens ≠ [] ∧ Stops [.rightBrace] tokens
  | .evaluate => Stops [.varWord, .printWord, .leftBrace] tokens
  | _ => True

end Frame

/-! ## What is missing -/

/-- What a rule of a symbol misses, behind the parts of it that have been read. -/
inductive Gap : Symbol → Type where
  | closingBrace : Gap .program
  | variableName (word : Terminal [.varWord]) : Gap .declaration
  | declareEnd (word : Terminal [.varWord]) (target : Terminal [.identifier]) : Gap .declaration
  | defineEnd (word : Terminal [.varWord]) (target : Terminal [.identifier])
      (sign : Terminal [.equal]) (value : Tree .expression) : Gap .declaration
  | printEnd (word : Terminal [.printWord]) (value : Tree .expression) : Gap .statement
  | blockEnd (opening : Terminal [.leftBrace]) (body : Tree .program)
      (closing : Terminal [.rightBrace]) : Gap .statement
  | evaluateEnd (value : Tree .expression) : Gap .statement
  /-- A variable in place of the expression, where an equals sign follows it. -/
  | assignmentTarget (left : Tree (.operand topLevel))
      (hleft : ∀ name, left.meaning ≠ Expr.variable name) : Gap .assignment
  | operand : Gap (.operand 0)
  | closingParen (opening : Terminal [.leftParen]) (inner : Tree .expression) : Gap .primary

namespace Gap

variable {s : Symbol}

/-- The tokens in front of the gap. -/
def tokens : Gap s → List Token
  | .closingBrace => []
  | .variableName word => [word.token]
  | .declareEnd word target => [word.token, target.token]
  | .defineEnd word target sign value => word.token :: target.token :: sign.token :: value.tokens
  | .printEnd word value => word.token :: value.tokens
  | .blockEnd opening body closing => opening.token :: (body.tokens ++ [closing.token])
  | .evaluateEnd value => value.tokens
  | .assignmentTarget left _ => left.tokens
  | .operand => []
  | .closingParen opening inner => opening.token :: inner.tokens

/-- Whether the tokens behind the gap neither close it nor extend what is in front of it.
In a block everything but the end goes on. -/
def Refuses (rest : List Token) : Gap s → Prop
  | .closingBrace => rest = []
  | .variableName _ => Stops [.identifier] rest
  | .declareEnd _ _ => Stops [.equal] rest ∧ Stops [.semicolon] rest
  | .defineEnd _ _ _ _ | .printEnd _ _ | .evaluateEnd _ =>
    Stops Symbol.expression.continuations rest ∧ Stops [.semicolon] rest
  | .blockEnd _ _ _ => Stops [.semicolon] rest
  | .assignmentTarget _ _ => Begins [.equal] rest
  | .operand => Stops expressionStarts rest
  | .closingParen _ _ => Stops Symbol.expression.continuations rest ∧ Stops [.rightParen] rest

/-- The failure that the gap is.  An equals sign has been passed over when its target turns
out to be none, and an open parenthesis is told by its own line. -/
def failure (last : Nat) (rest : List Token) : Gap s → Failure
  | .closingBrace => failureAt last .closingBrace rest
  | .variableName _ => failureAt last .variableName rest
  | .declareEnd _ _ | .defineEnd _ _ _ _ => failureAt last .semicolonAfterDeclaration rest
  | .printEnd _ _ => failureAt last .semicolonAfterValue rest
  | .blockEnd _ _ _ => failureAt last .semicolonAfterBlock rest
  | .evaluateEnd _ => failureAt last .semicolonAfterExpression rest
  | .assignmentTarget _ _ => ⟨⟨nextLine last rest, .assignmentTarget⟩, rest.length - 1⟩
  | .operand => failureAt last .expression rest
  | .closingParen opening _ => ⟨⟨lineOf opening.token, .closingParen⟩, rest.length⟩

end Gap

/-! ## Broken phrases -/

/-- A phrase of a symbol that breaks off at a gap. -/
inductive Broken : Symbol → Type where
  | gap {s : Symbol} (g : Gap s) : Broken s
  | inside {s part : Symbol} (f : Frame s part) (b : Broken part) : Broken s

namespace Broken

variable {s : Symbol}

/-- The tokens in front of the gap. -/
def tokens {s : Symbol} : Broken s → List Token
  | .gap g => g.tokens
  | .inside f b => f.tokens ++ b.tokens

/-- Whether no rule under way goes on with the tokens behind the gap. -/
def Refuses (rest : List Token) {s : Symbol} : Broken s → Prop
  | .gap g => g.Refuses rest
  | .inside f b => f.Admits (b.tokens ++ rest) ∧ b.Refuses rest

/-- The failure that the gap is. -/
def failure (last : Nat) (rest : List Token) {s : Symbol} : Broken s → Failure
  | .gap g => g.failure last rest
  | .inside _ b => b.failure last rest

end Broken

/-! ## Only the next token counts -/

theorem Stops.cons {kinds : List TokenKind} {t : Token} {after : List Token}
    (h : Stops kinds (t :: after)) (others : List Token) : Stops kinds (t :: others) :=
  stops_cons_iff.mpr (stops_cons_iff.mp h)

theorem Begins.cons {kinds : List TokenKind} {t : Token} {after : List Token}
    (h : Begins kinds (t :: after)) (others : List Token) : Begins kinds (t :: others) := by
  obtain ⟨first, _, heq, hkind⟩ := h
  cases heq
  exact ⟨t, others, rfl, hkind⟩

theorem Frame.Admits.cons {s part : Symbol} {f : Frame s part} {t : Token} {after : List Token}
    (h : f.Admits (t :: after)) (others : List Token) : f.Admits (t :: others) := by
  cases f with
  | declaration => exact ⟨List.cons_ne_nil _ _, h.2.cons others⟩
  | evaluate => exact Stops.cons h others
  | _ => trivial

theorem Gap.Refuses.cons {s : Symbol} {g : Gap s} {t : Token} {after : List Token}
    (h : g.Refuses (t :: after)) (others : List Token) : g.Refuses (t :: others) := by
  cases g with
  | closingBrace => cases h
  | assignmentTarget => exact Begins.cons h others
  | variableName => exact Stops.cons h others
  | blockEnd => exact Stops.cons h others
  | operand => exact Stops.cons h others
  | declareEnd => exact ⟨h.1.cons others, h.2.cons others⟩
  | defineEnd => exact ⟨h.1.cons others, h.2.cons others⟩
  | printEnd => exact ⟨h.1.cons others, h.2.cons others⟩
  | evaluateEnd => exact ⟨h.1.cons others, h.2.cons others⟩
  | closingParen => exact ⟨h.1.cons others, h.2.cons others⟩

theorem Broken.Refuses.cons {s : Symbol} {b : Broken s} {t : Token} {after : List Token}
    (h : b.Refuses (t :: after)) (others : List Token) : b.Refuses (t :: others) := by
  induction b with
  | gap g => exact Gap.Refuses.cons h others
  | inside f b ih =>
      refine ⟨?_, ih h.2⟩
      have hadmits := h.1
      cases htokens : b.tokens with
      | nil =>
          rw [htokens] at hadmits
          exact hadmits.cons others
      | cons head tail =>
          rw [htokens] at hadmits
          exact hadmits.cons (tail ++ t :: others)

/-! ## Completion -/

/-- The terminal that a phrase still needs. -/
def Terminal.missing (k : TokenKind) : Terminal [k] :=
  ⟨Token.simple k none, List.mem_singleton.mpr rfl⟩

namespace Frame

variable {s part : Symbol}

/-- The shortest phrase with the rule, once the part is complete. -/
def complete : Frame s part → Tree part → Tree s
  | .declaration, d => .more d .nothing
  | .declarations first, p => .more first p
  | .define word target sign, e => .define word target sign e (.missing .semicolon)
  | .statement, d => .statement d
  | .print word, e => .print word e (.missing .semicolon)
  | .block opening, p => .block opening p (.missing .rightBrace) (.missing .semicolon)
  | .evaluate, e => .evaluate e (.missing .semicolon)
  | .expression, e => .expression e
  | .assign target sign, e => .assign target sign e
  | .equality, e => .equality e
  | .operand, e => .chain e .stop
  | .operators first, others => .chain first others
  | .right operator, e => .next operator e .stop
  | .next operator second, others => .next operator second others
  | .unary operator, e => .unary operator e
  | .primary, e => .primary e
  | .grouping opening, e => .grouping opening e (.missing .rightParen)

/-- The tokens behind the part in this phrase. -/
def ending : Frame s part → List Token
  | .define .. | .print .. | .evaluate => [(Terminal.missing .semicolon).token]
  | .block _ => [(Terminal.missing .rightBrace).token, (Terminal.missing .semicolon).token]
  | .grouping _ => [(Terminal.missing .rightParen).token]
  | _ => []

theorem complete_tokens (f : Frame s part) (t : Tree part) :
    (f.complete t).tokens = f.tokens ++ (t.tokens ++ f.ending) := by
  cases f <;>
    simp only [complete, tokens, ending, Tree.tokens, List.cons_append, List.nil_append,
      List.append_nil]

end Frame

namespace Gap

variable {s : Symbol}

/-- The shortest phrase in which the gap is closed. -/
def complete : Gap s → Tree s
  | .closingBrace => .nothing
  | .variableName word => .declare word (.missing .identifier) (.missing .semicolon)
  | .declareEnd word target => .declare word target (.missing .semicolon)
  | .defineEnd word target sign value => .define word target sign value (.missing .semicolon)
  | .printEnd word value => .print word value (.missing .semicolon)
  | .blockEnd opening body closing => .block opening body closing (.missing .semicolon)
  | .evaluateEnd value => .evaluate value (.missing .semicolon)
  | .assignmentTarget left _ => .equality left
  | .operand => .primary (.literal ⟨Token.simple .nilWord none, by decide⟩)
  | .closingParen opening inner => .grouping opening inner (.missing .rightParen)

/-- The tokens that close the gap in this phrase. -/
def ending : Gap s → List Token
  | .closingBrace | .assignmentTarget .. => []
  | .variableName _ => [(Terminal.missing .identifier).token, (Terminal.missing .semicolon).token]
  | .operand => [Token.simple .nilWord none]
  | .closingParen .. => [(Terminal.missing .rightParen).token]
  | _ => [(Terminal.missing .semicolon).token]

theorem complete_tokens (g : Gap s) : g.complete.tokens = g.tokens ++ g.ending := by
  cases g <;>
    simp only [complete, tokens, ending, Tree.tokens, List.cons_append, List.nil_append,
      List.append_nil, List.append_assoc]

end Gap

/-- Every broken phrase is the beginning of a phrase. -/
theorem Broken.exists_tree {s : Symbol} (b : Broken s) :
    ∃ (t : Tree s) (more : List Token), t.tokens = b.tokens ++ more := by
  induction b with
  | gap g => exact ⟨g.complete, g.ending, g.complete_tokens⟩
  | inside f b ih =>
      obtain ⟨t, more, ht⟩ := ih
      refine ⟨f.complete t, more ++ f.ending, ?_⟩
      rw [f.complete_tokens, ht, tokens, List.append_assoc, List.append_assoc]

end Grammar

end MiniLox
