import Formula.Expr.Parse

/-!
# The grammar of formulas

The phrases of the language and the tree of each, said without a reader:

    sum     := product (('+' | '-') product)*                        grouped to the left
    product := power (('*' | '/' | '%') power | power)*              grouped to the left
    power   := signed | signed '^' power                             grouped to the right
    signed  := '-' signed | '+' signed | primary
    primary := literal | variable | name '(' [sum (',' sum)*] ')' | name | '(' sum ')'

* `Derives registry p tokens rest e`: the tokens begin with a phrase `p` whose tree is `e`, and `rest`
  follows it. A repetition that groups to the left is a rule with the phrase itself on its left.
* The second form of a factor has no operator; it begins with a token that begins a value, and it
  multiplies.
* A name is a constant only where no opening parenthesis follows it, which is why a phrase is
  derived together with what follows.
* A phrase is also a phrase of every weaker kind (`Derives.toSum` and its companions).
-/

namespace Formula

/-- The kinds of phrases, from the weakest to the tightest. -/
inductive Phrase
  | sum
  | product
  | power
  | signed
  | primary
  deriving DecidableEq, Repr

mutual

/-- The phrases at the beginning of a row of tokens, each with its tree and what follows it. -/
inductive Derives (registry : Registry) : Phrase → List Token → List Token → Expr → Prop
  | product {tokens rest : List Token} {e : Expr} :
      Derives registry .product tokens rest e → Derives registry .sum tokens rest e
  | add {tokens middle rest : List Token} {symbol : Char} {operator : Token} {l r : Expr}
      (hsymbol : symbol ∈ ['+', '-']) (hoperator : operator.isSymbol symbol = true) :
      Derives registry .sum tokens (operator :: middle) l →
      Derives registry .product middle rest r →
      Derives registry .sum tokens rest (.binary symbol l r)
  | power {tokens rest : List Token} {e : Expr} :
      Derives registry .power tokens rest e → Derives registry .product tokens rest e
  | multiply {tokens middle rest : List Token} {symbol : Char} {operator : Token} {l r : Expr}
      (hsymbol : symbol ∈ ['*', '/', '%']) (hoperator : operator.isSymbol symbol = true) :
      Derives registry .product tokens (operator :: middle) l →
      Derives registry .power middle rest r →
      Derives registry .product tokens rest (.binary symbol l r)
  | juxtapose {tokens middle rest : List Token} {first : Token} {l r : Expr}
      (hfirst : first.startsOperand = true) :
      Derives registry .product tokens (first :: middle) l →
      Derives registry .power (first :: middle) rest r →
      Derives registry .product tokens rest (.binary '*' l r)
  | signed {tokens rest : List Token} {e : Expr} :
      Derives registry .signed tokens rest e → Derives registry .power tokens rest e
  | raise {tokens middle rest : List Token} {operator : Token} {l r : Expr}
      (hoperator : operator.isSymbol '^' = true) :
      Derives registry .signed tokens (operator :: middle) l →
      Derives registry .power middle rest r →
      Derives registry .power tokens rest (.binary '^' l r)
  | minus {sign : Token} {tokens rest : List Token} {e : Expr} (hsign : sign.isSymbol '-' = true) :
      Derives registry .signed tokens rest e →
      Derives registry .signed (sign :: tokens) rest (.negation e)
  | plus {sign : Token} {tokens rest : List Token} {e : Expr} (hsign : sign.isSymbol '+' = true) :
      Derives registry .signed tokens rest e → Derives registry .signed (sign :: tokens) rest e
  | primary {tokens rest : List Token} {e : Expr} :
      Derives registry .primary tokens rest e → Derives registry .signed tokens rest e
  | literal {token : Token} {rest : List Token} {value : Float} (hkind : token.kind = .literal)
      (hvalue : Double.read token.text = .ok value) :
      Derives registry .primary (token :: rest) rest (.number value token.text)
  | var {token : Token} {rest : List Token} (hkind : token.kind = .var) :
      Derives registry .primary (token :: rest) rest (.var (Expr.variableName token.text))
  | call {name opening : Token} {tokens rest : List Token} {function : Function} {es : List Expr}
      (hname : name.kind = .identifier) (hopening : opening.isSymbol '(' = true)
      (hfunction : registry.function? name.text = some function)
      (harity : function.arity.accepts es.length = true) :
      DerivesArguments registry tokens rest es →
      Derives registry .primary (name :: opening :: tokens) rest (.call name.text es)
  | callEmpty {name opening closing : Token} {rest : List Token} {function : Function}
      (hname : name.kind = .identifier) (hopening : opening.isSymbol '(' = true)
      (hclosing : closing.isSymbol ')' = true)
      (hfunction : registry.function? name.text = some function)
      (harity : function.arity.accepts 0 = true) :
      Derives registry .primary (name :: opening :: closing :: rest) rest (.call name.text [])
  | constant {name : Token} {rest : List Token} {found : Constant} (hname : name.kind = .identifier)
      (hnext : ∀ next ∈ rest.head?, next.isSymbol '(' = false)
      (hfound : registry.constant? name.text = some found) :
      Derives registry .primary (name :: rest) rest (.constant name.text found.value)
  | group {opening closing : Token} {tokens rest : List Token} {e : Expr}
      (hopening : opening.isSymbol '(' = true) (hclosing : closing.isSymbol ')' = true) :
      Derives registry .sum tokens (closing :: rest) e →
      Derives registry .primary (opening :: tokens) rest e

/-- At least one argument, with commas between any two, and the closing parenthesis. -/
inductive DerivesArguments (registry : Registry) :
    List Token → List Token → List Expr → Prop
  | last {closing : Token} {tokens rest : List Token} {e : Expr}
      (hclosing : closing.isSymbol ')' = true) :
      Derives registry .sum tokens (closing :: rest) e →
      DerivesArguments registry tokens rest [e]
  | more {comma : Token} {tokens middle rest : List Token} {e : Expr} {es : List Expr}
      (hcomma : comma.kind = .comma) :
      Derives registry .sum tokens (comma :: middle) e →
      DerivesArguments registry middle rest es →
      DerivesArguments registry tokens rest (e :: es)

end

namespace Phrase

/-- The precedence of the operators that join the parts of a phrase; a phrase without operators is
    tighter than all of them. -/
def level : Phrase → Nat
  | sum => 20
  | product => 40
  | power => 60
  | signed => 61
  | primary => 62

end Phrase

namespace Derives

variable {registry : Registry} {p : Phrase} {tokens rest : List Token} {e : Expr}

theorem toSigned (h : Derives registry p tokens rest e) (hlevel : 61 ≤ p.level) :
    Derives registry .signed tokens rest e := by
  cases p with
  | signed => exact h
  | primary => exact .primary h
  | sum | product | power => exact absurd hlevel (by decide)

theorem toPower (h : Derives registry p tokens rest e) (hlevel : 60 ≤ p.level) :
    Derives registry .power tokens rest e := by
  cases p with
  | power => exact h
  | signed | primary => exact .signed (h.toSigned (by decide))
  | sum | product => exact absurd hlevel (by decide)

theorem toProduct (h : Derives registry p tokens rest e) (hlevel : 40 ≤ p.level) :
    Derives registry .product tokens rest e := by
  cases p with
  | product => exact h
  | power | signed | primary => exact .power (h.toPower (by decide))
  | sum => exact absurd hlevel (by decide)

theorem toSum (h : Derives registry p tokens rest e) : Derives registry .sum tokens rest e := by
  cases p with
  | sum => exact h
  | product | power | signed | primary => exact .product (h.toProduct (by decide))

mutual

/-- What follows a phrase is a suffix of the tokens at its beginning. -/
theorem suffix : ∀ {p : Phrase} {tokens rest : List Token} {e : Expr},
    Derives registry p tokens rest e → rest <:+ tokens
  | _, _, _, _, .product h | _, _, _, _, .power h | _, _, _, _, .signed h | _, _, _, _, .primary h =>
    h.suffix
  | _, _, _, _, .minus _ h | _, _, _, _, .plus _ h => h.suffix.trans (List.suffix_cons _ _)
  | _, _, _, _, .add _ _ hl hr | _, _, _, _, .multiply _ _ hl hr | _, _, _, _, .raise _ hl hr =>
    hr.suffix.trans ((List.suffix_cons _ _).trans hl.suffix)
  | _, _, _, _, .juxtapose _ hl hr => hr.suffix.trans hl.suffix
  | _, _, _, _, .literal _ _ | _, _, _, _, .var _ | _, _, _, _, .constant _ _ _ =>
    List.suffix_cons _ _
  | _, _, _, _, .call _ _ _ _ h =>
    (suffix_arguments h).trans ((List.suffix_cons _ _).trans (List.suffix_cons _ _))
  | _, _, _, _, .callEmpty _ _ _ _ _ =>
    (List.suffix_cons _ _).trans ((List.suffix_cons _ _).trans (List.suffix_cons _ _))
  | _, _, _, _, .group _ _ h =>
    (List.suffix_cons _ _).trans (h.suffix.trans (List.suffix_cons _ _))

theorem suffix_arguments : ∀ {tokens rest : List Token} {es : List Expr},
    DerivesArguments registry tokens rest es → rest <:+ tokens
  | _, _, _, .last _ h => (List.suffix_cons _ _).trans h.suffix
  | _, _, _, .more _ h hes =>
    (suffix_arguments hes).trans ((List.suffix_cons _ _).trans h.suffix)

end

end Derives

end Formula
