import IntLang.Grammar.Rules
import IntLang.Stmt.Basic
import IntLang.Text.Decimal

/-!
The grammar of the language, one inductive relation for each nonterminal. A relation says which
tokens make which tree; the spans of the tree are left open. The number in front bounds the nesting
levels that may be open at once inside the phrase, its own level not counted. Each statement opens a
level, and so does each expression that is a condition, an assigned or returned value, an argument,
a group in parentheses or the right operand of an operator, and the expression of an expression
statement that does not begin with an identifier.

The rule for conditionals leaves open which `if` an `else` belongs to. That choice is `ElseNearest`.
-/
namespace IntLang.Grammar

inductive ProductSign : TokenKind → Operator → Prop
  | star : ProductSign .star .multiply
  | slash : ProductSign .slash .divide

inductive SumSign : TokenKind → Operator → Prop
  | plus : SumSign .plus .add
  | dash : SumSign .dash .subtract

mutual

/-- `factor := number | string | function_call | identifier | '(' expression ')'` and
`function_call := identifier '(' (expression (',' expression)*)? ')'` -/
inductive Factor : Nat → List Token → Expr → Prop
  | number {n t span} (hkind : t.kind = .number)
      (hvalue : decimalValue t.text.toList < integerBound) :
      Factor n [t] (.number (Int64.ofNat (decimalValue t.text.toList)) span)
  | string {n t span} (hkind : t.kind = .string) : Factor n [t] (.string t.text span)
  | var {n t span} (hkind : t.kind = .identifier) : Factor n [t] (.var t.text span)
  | call {n t o ts c args span} (hkind : t.kind = .identifier) (hopen : o.kind = .openParen)
      (hargs : Arguments n ts args) (hclose : c.kind = .closeParen) :
      Factor n (t :: o :: (ts ++ [c])) (.call t.text args span)
  | group {n o ts c e} (hopen : o.kind = .openParen) (he : Expression n ts e)
      (hclose : c.kind = .closeParen) : Factor (n + 1) (o :: (ts ++ [c])) e

/-- `term := factor (('*'|'/') factor)*`, the operators grouping to the left. -/
inductive Term : Nat → List Token → Expr → Prop
  | factor {n ts e} (he : Factor n ts e) : Term n ts e
  | product {n ts s us operator a b span} (ha : Term (n + 1) ts a)
      (hsign : ProductSign s.kind operator) (hb : Factor n us b) :
      Term (n + 1) (ts ++ s :: us) (.binary operator a b span)

/-- `expression := term (('+'|'-') term)*`, the operators grouping to the left. -/
inductive Expression : Nat → List Token → Expr → Prop
  | term {n ts e} (he : Term n ts e) : Expression n ts e
  | sum {n ts s us operator a b span} (ha : Expression (n + 1) ts a)
      (hsign : SumSign s.kind operator) (hb : Term n us b) :
      Expression (n + 1) (ts ++ s :: us) (.binary operator a b span)

/-- `(expression (',' expression)*)?` -/
inductive Arguments : Nat → List Token → List Expr → Prop
  | none {n} : Arguments n [] []
  | one {n ts e} (he : Expression n ts e) : Arguments (n + 1) ts [e]
  | more {n ts s us e f es} (he : Expression n ts e) (hcomma : s.kind = .comma)
      (hes : Arguments (n + 1) us (f :: es)) : Arguments (n + 1) (ts ++ s :: us) (e :: f :: es)

end

/-- `'(' expression ')'` after `if` and `while`. -/
inductive Condition : Nat → List Token → Expr → Prop
  | mk {n o ts c e} (hopen : o.kind = .openParen) (he : Expression n ts e)
      (hclose : c.kind = .closeParen) : Condition (n + 1) (o :: (ts ++ [c])) e

/-- `identifier (',' identifier)*` -/
inductive Names : List Token → List String → Prop
  | one {t} (hkind : t.kind = .identifier) : Names [t] [t.text]
  | more {t s ts names} (hkind : t.kind = .identifier) (hcomma : s.kind = .comma)
      (hnames : Names ts names) : Names (t :: s :: ts) (t.text :: names)

/-- `(identifier (',' identifier)*)?` -/
inductive Parameters : List Token → List String → Prop
  | none : Parameters [] []
  | some {ts names} (hnames : Names ts names) : Parameters ts names

def BeginsWithIdentifier (ts : List Token) : Prop :=
  ∃ t us, ts = t :: us ∧ t.kind = .identifier

mutual

/-- `statement := if_stmt | while_stmt | return_stmt | function_def | block | assignment_stmt |
expr_stmt` -/
inductive Statement : Nat → List Token → Stmt → Prop
  | ifThen {n w cs ts e s span} (hword : w.kind = .ifWord) (htest : Condition (n + 1) cs e)
      (hthen : Statement n ts s) : Statement (n + 1) (w :: (cs ++ ts)) (.ifThen e s span)
  | ifElse {n w cs ts x us e s r span} (hword : w.kind = .ifWord)
      (htest : Condition (n + 1) cs e) (hthen : Statement n ts s) (helse : x.kind = .elseWord)
      (hrest : Statement n us r) :
      Statement (n + 1) (w :: (cs ++ (ts ++ x :: us))) (.ifElse e s r span)
  | loop {n w cs ts e s span} (hword : w.kind = .whileWord) (htest : Condition (n + 1) cs e)
      (hbody : Statement n ts s) : Statement (n + 1) (w :: (cs ++ ts)) (.loop e s span)
  | ret {n w ts c e span} (hword : w.kind = .returnWord) (he : Expression n ts e)
      (hclose : c.kind = .semicolon) : Statement (n + 1) (w :: (ts ++ [c])) (.ret e span)
  | function {n w t o ps c bs names body bodySpan span} (hword : w.kind = .functionWord)
      (hname : t.kind = .identifier) (hopen : o.kind = .openParen) (hnames : Parameters ps names)
      (hnodup : names.Nodup) (hclose : c.kind = .closeParen) (hbody : Block n bs body) :
      Statement n (w :: t :: o :: (ps ++ c :: bs)) (.function t.text names body bodySpan span)
  | block {n ts body span} (hbody : Block n ts body) : Statement n ts (.block body span)
  | assign {n t s ts c e span} (hname : t.kind = .identifier) (hassign : s.kind = .assign)
      (he : Expression n ts e) (hclose : c.kind = .semicolon) :
      Statement (n + 1) (t :: s :: (ts ++ [c])) (.assign t.text e span)
  | expressionNamed {n ts c e span} (he : Expression n ts e) (hnamed : BeginsWithIdentifier ts)
      (hclose : c.kind = .semicolon) : Statement n (ts ++ [c]) (.expression e span)
  | expression {n ts c e span} (he : Expression n ts e) (hnamed : ¬BeginsWithIdentifier ts)
      (hclose : c.kind = .semicolon) : Statement (n + 1) (ts ++ [c]) (.expression e span)

/-- `block := '{' statement* '}'` -/
inductive Block : Nat → List Token → List Stmt → Prop
  | mk {n o ts c body} (hopen : o.kind = .openCurly) (hbody : Statements n ts body)
      (hclose : c.kind = .closeCurly) : Block n (o :: (ts ++ [c])) body

/-- `statement*` -/
inductive Statements : Nat → List Token → List Stmt → Prop
  | nil {n} : Statements n [] []
  | cons {n ts us s ss} (hs : Statement n ts s) (hss : Statements (n + 1) us ss) :
      Statements (n + 1) (ts ++ us) (s :: ss)

end

/-- `program := statement*` -/
abbrev Program : Nat → List Token → List Stmt → Prop := Statements

end IntLang.Grammar
