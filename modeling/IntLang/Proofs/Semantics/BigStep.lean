import IntLang.Eval.Basic
import IntLang.Eval.Machine

/-!
The meaning of programs as a big-step semantics without counters, limits of depth or fuel. It says
which result an expression or statement has, starting from an environment and a world: the functions
declared so far and the lines printed so far. An expression leaves its environment as it was. A
`return` is an exception that leaves every block, branch and loop up to the nearest call or to the
program, as an error leaves everything. The only limit is the number of variables that the scope of
a call may hold.
-/
namespace IntLang

/-- What evaluation changes besides variables. -/
structure World where
  functions : Table Function
  output : Array String

def World.print (w : World) (line : String) : World := { w with output := w.output.push line }

def World.declare (w : World) (f : Function) : World :=
  { w with functions := w.functions.declare f }

/-- How a statement is left before its end. -/
inductive Exit where
  | returned (value : Int64)
  | failed (error : Error)

def Exit.answer : Except Exit Unit → Except Error Int64
  | .ok () => .ok 0
  | .error (.returned value) => .ok value
  | .error (.failed e) => .error e

def Operator.answer (operator : Operator) (a b : Int64) (p : Position) : Except Error Int64 :=
  match operator.result? a b with
  | some value => .ok value
  | none => .error ⟨.divisionByZero, p⟩

def Expr.isString : Expr → Bool
  | string _ _ => true
  | _ => false

mutual

inductive Evaluates (room : Option Nat) :
    Environment → World → Expr → Except Error Int64 → World → Prop
  | number {env w value span} : Evaluates room env w (.number value span) (.ok value) w
  | string {env w text span} : Evaluates room env w (.string text span)
      (.error ⟨.typeMismatch "integer" "string", span.position⟩) w
  | var {env w name span} :
      Evaluates room env w (.var name span) (env.lookup name span.position) w
  | leftFails {env w operator a b span e w'} (ha : Evaluates room env w a (.error e) w') :
      Evaluates room env w (.binary operator a b span) (.error e) w'
  | rightFails {env w operator a b span x w₁ e w'} (ha : Evaluates room env w a (.ok x) w₁)
      (hb : Evaluates room env w₁ b (.error e) w') :
      Evaluates room env w (.binary operator a b span) (.error e) w'
  | binary {env w operator a b span x w₁ y w'} (ha : Evaluates room env w a (.ok x) w₁)
      (hb : Evaluates room env w₁ b (.ok y) w') :
      Evaluates room env w (.binary operator a b span) (operator.answer x y b.position) w'
  | undefined {env w f es span} (hf : w.functions.get? f = none)
      (hbuiltin : Builtin.ofName? f = none) :
      Evaluates room env w (.call f es span) (.error ⟨.undefinedFunction f, span.position⟩) w
  | printFails {env w f es span e w'} (hf : w.functions.get? f = none)
      (hbuiltin : Builtin.ofName? f = some .print) (hes : Shows room env w es (.error e) w') :
      Evaluates room env w (.call f es span) (.error e) w'
  | print {env w f es span parts w'} (hf : w.functions.get? f = none)
      (hbuiltin : Builtin.ofName? f = some .print) (hes : Shows room env w es (.ok parts) w') :
      Evaluates room env w (.call f es span) (.ok 0) (w'.print (String.intercalate " " parts))
  | arity {env w f es span g} (hf : w.functions.get? f = some g) (harity : g.arity ≠ es.length) :
      Evaluates room env w (.call f es span)
        (.error ⟨.arityMismatch f g.arity es.length, span.position⟩) w
  | argumentFails {env w f es span g e w'} (hf : w.functions.get? f = some g)
      (harity : g.arity = es.length) (hes : EvaluatesAll room env w es (.error e) w') :
      Evaluates room env w (.call f es span) (.error e) w'
  | noRoom {env w f es span g values w' cause} (hf : w.functions.get? f = some g)
      (harity : g.arity = es.length) (hes : EvaluatesAll room env w es (.ok values) w')
      (hscope : (Scope.empty room).assignAll (g.parameters.zip values) = .error cause) :
      Evaluates room env w (.call f es span) (.error ⟨cause, span.position⟩) w'
  | call {env w f es span g values w₁ scope r env' w'} (hf : w.functions.get? f = some g)
      (harity : g.arity = es.length) (hes : EvaluatesAll room env w es (.ok values) w₁)
      (hscope : (Scope.empty room).assignAll (g.parameters.zip values) = .ok scope)
      (hbody : ExecutesAll room ⟨scope, [env.root]⟩ w₁ g.body.body r env' w') :
      Evaluates room env w (.call f es span) (Exit.answer r) w'

inductive EvaluatesAll (room : Option Nat) :
    Environment → World → List Expr → Except Error (List Int64) → World → Prop
  | nil {env w} : EvaluatesAll room env w [] (.ok []) w
  | fails {env w e es err w'} (he : Evaluates room env w e (.error err) w') :
      EvaluatesAll room env w (e :: es) (.error err) w'
  | cons {env w e es value w₁ r w'} (he : Evaluates room env w e (.ok value) w₁)
      (hes : EvaluatesAll room env w₁ es r w') :
      EvaluatesAll room env w (e :: es) (r.map (value :: ·)) w'

inductive Shows (room : Option Nat) :
    Environment → World → List Expr → Except Error (List String) → World → Prop
  | nil {env w} : Shows room env w [] (.ok []) w
  | text {env w text span es r w'} (hes : Shows room env w es r w') :
      Shows room env w (.string text span :: es) (r.map (text :: ·)) w'
  | fails {env w e es err w'} (hstring : e.isString = false)
      (he : Evaluates room env w e (.error err) w') : Shows room env w (e :: es) (.error err) w'
  | value {env w e es value w₁ r w'} (hstring : e.isString = false)
      (he : Evaluates room env w e (.ok value) w₁) (hes : Shows room env w₁ es r w') :
      Shows room env w (e :: es) (r.map (toString value.toInt :: ·)) w'

inductive Executes (room : Option Nat) :
    Environment → World → Stmt → Except Exit Unit → Environment → World → Prop
  | expressionFails {env w e span err w'} (he : Evaluates room env w e (.error err) w') :
      Executes room env w (.expression e span) (.error (.failed err)) env w'
  | expression {env w e span value w'} (he : Evaluates room env w e (.ok value) w') :
      Executes room env w (.expression e span) (.ok ()) env w'
  | valueFails {env w name e span err w'} (he : Evaluates room env w e (.error err) w') :
      Executes room env w (.assign name e span) (.error (.failed err)) env w'
  | noRoom {env w name e span value w' err} (he : Evaluates room env w e (.ok value) w')
      (henv : env.assign name value span.position = .error err) :
      Executes room env w (.assign name e span) (.error (.failed err)) env w'
  | assign {env w name e span value w' env'} (he : Evaluates room env w e (.ok value) w')
      (henv : env.assign name value span.position = .ok env') :
      Executes room env w (.assign name e span) (.ok ()) env' w'
  | block {env w body span r env' w'} (hbody : ExecutesAll room env w body r env' w') :
      Executes room env w (.block body span) r env' w'
  | ifThenFails {env w e s span err w'} (he : Evaluates room env w e (.error err) w') :
      Executes room env w (.ifThen e s span) (.error (.failed err)) env w'
  | ifThenSkip {env w e s span w'} (he : Evaluates room env w e (.ok 0) w') :
      Executes room env w (.ifThen e s span) (.ok ()) env w'
  | ifThen {env w e s span value w₁ r env' w'} (he : Evaluates room env w e (.ok value) w₁)
      (hvalue : value ≠ 0) (hs : Executes room env w₁ s r env' w') :
      Executes room env w (.ifThen e s span) r env' w'
  | ifElseFails {env w e s t span err w'} (he : Evaluates room env w e (.error err) w') :
      Executes room env w (.ifElse e s t span) (.error (.failed err)) env w'
  | ifElseZero {env w e s t span w₁ r env' w'} (he : Evaluates room env w e (.ok 0) w₁)
      (ht : Executes room env w₁ t r env' w') :
      Executes room env w (.ifElse e s t span) r env' w'
  | ifElse {env w e s t span value w₁ r env' w'} (he : Evaluates room env w e (.ok value) w₁)
      (hvalue : value ≠ 0) (hs : Executes room env w₁ s r env' w') :
      Executes room env w (.ifElse e s t span) r env' w'
  | loop {env w e s span r env' w'} (hloop : Repeats room env w e s r env' w') :
      Executes room env w (.loop e s span) r env' w'
  | retFails {env w e span err w'} (he : Evaluates room env w e (.error err) w') :
      Executes room env w (.ret e span) (.error (.failed err)) env w'
  | ret {env w e span value w'} (he : Evaluates room env w e (.ok value) w') :
      Executes room env w (.ret e span) (.error (.returned value)) env w'
  | function {env w name parameters body bodySpan span} :
      Executes room env w (.function name parameters body bodySpan span) (.ok ()) env
        (w.declare ⟨name, parameters, ⟨body, bodySpan⟩⟩)

inductive ExecutesAll (room : Option Nat) :
    Environment → World → List Stmt → Except Exit Unit → Environment → World → Prop
  | nil {env w} : ExecutesAll room env w [] (.ok ()) env w
  | exit {env w s ss x env' w'} (hs : Executes room env w s (.error x) env' w') :
      ExecutesAll room env w (s :: ss) (.error x) env' w'
  | cons {env w s ss env₁ w₁ r env' w'} (hs : Executes room env w s (.ok ()) env₁ w₁)
      (hss : ExecutesAll room env₁ w₁ ss r env' w') : ExecutesAll room env w (s :: ss) r env' w'

inductive Repeats (room : Option Nat) :
    Environment → World → Expr → Stmt → Except Exit Unit → Environment → World → Prop
  | fails {env w e s err w'} (he : Evaluates room env w e (.error err) w') :
      Repeats room env w e s (.error (.failed err)) env w'
  | stop {env w e s w'} (he : Evaluates room env w e (.ok 0) w') :
      Repeats room env w e s (.ok ()) env w'
  | exit {env w e s value w₁ x env' w'} (he : Evaluates room env w e (.ok value) w₁)
      (hvalue : value ≠ 0) (hs : Executes room env w₁ s (.error x) env' w') :
      Repeats room env w e s (.error x) env' w'
  | again {env w e s value w₁ env₂ w₂ r env' w'} (he : Evaluates room env w e (.ok value) w₁)
      (hvalue : value ≠ 0) (hs : Executes room env w₁ s (.ok ()) env₂ w₂)
      (hloop : Repeats room env₂ w₂ e s r env' w') : Repeats room env w e s r env' w'

end

def Stmt.isExpression : Stmt → Bool
  | expression _ _ => true
  | _ => false

/-- The result of a program. Its value is that of a `return` at the top, or else the value of the
last expression statement at the top, or else the given one. -/
inductive Runs (room : Option Nat) :
    Environment → World → Int64 → List Stmt → Except Error Int64 → Environment → World → Prop
  | nil {env w last} : Runs room env w last [] (.ok last) env w
  | fails {env w last e span ss err w'} (he : Evaluates room env w e (.error err) w') :
      Runs room env w last (.expression e span :: ss) (.error err) env w'
  | expression {env w last e span ss value w₁ r env' w'}
      (he : Evaluates room env w e (.ok value) w₁) (hss : Runs room env w₁ value ss r env' w') :
      Runs room env w last (.expression e span :: ss) r env' w'
  | exit {env w last s ss x env' w'} (hexpression : s.isExpression = false)
      (hs : Executes room env w s (.error x) env' w') :
      Runs room env w last (s :: ss) (Exit.answer (.error x)) env' w'
  | statement {env w last s ss env₁ w₁ r env' w'} (hexpression : s.isExpression = false)
      (hs : Executes room env w s (.ok ()) env₁ w₁) (hss : Runs room env₁ w₁ last ss r env' w') :
      Runs room env w last (s :: ss) r env' w'

end IntLang
