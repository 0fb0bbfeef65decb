import Formula.Proofs.Grammar.Leaves
import Formula.Proofs.Grammar.Spelling
import Formula.Proofs.Tree.Basic
import Mathlib.Data.List.Chain

/-!
# Formulas in the place of variables

Instead of a variable, a formula in parentheses may stand in a row of tokens, and its tree stands in
the tree of the row where the variable stood. A phrase does not see what is inside parentheses: they
make a value of any formula, and only a name in front of them would take them for its own.

* `Expr.graft` replaces a variable in a tree, and `Token.graft` in a row of tokens.
* `Derives.append`: a phrase may be followed by anything that does not open a parenthesis.
* `Derives.variableNames`: the variables of a phrase are those of its tokens, in order.
* `Derives.graft` carries the induction on the derivation, for every place of the variable.
* `ofTokens_grafted` is the main statement.
-/

namespace Formula

/-! ## 1. Grafts -/

namespace Expr

mutual

/-- Puts a tree in the place of a variable, wherever it stands. -/
def graft (e : Expr) (x : String) (scion : Expr) : Expr :=
  match e with
  | number value text => number value text
  | constant name value => constant name value
  | var name => if name = x then scion else var name
  | binary symbol left right => binary symbol (left.graft x scion) (right.graft x scion)
  | call name arguments => call name (graftAll arguments x scion)

/-- Puts a tree in the place of a variable in each argument. -/
def graftAll (arguments : List Expr) (x : String) (scion : Expr) : List Expr :=
  match arguments with
  | [] => []
  | e :: rest => e.graft x scion :: graftAll rest x scion

end

theorem length_graftAll (arguments : List Expr) (x : String) (scion : Expr) :
    (graftAll arguments x scion).length = arguments.length := by
  induction arguments with
  | nil => rfl
  | cons e rest ih => rw [graftAll, List.length_cons, ih, List.length_cons]

/-- The variable that a leaf is. -/
def varName? : Expr → Option String
  | var name => some name
  | number _ _ | constant _ _ | binary _ _ _ | call _ _ => none

end Expr

namespace Token

/-- The variable that a token is. -/
def varName? (token : Token) : Option String :=
  if token.kind = .var then some (Expr.variableName token.text) else none

theorem varName?_of_kind {token : Token} (h : token.kind ≠ .var) : token.varName? = none := if_neg h

theorem varName?_of_isSymbol {token : Token} {c : Char} (h : token.isSymbol c = true) :
    token.varName? = none :=
  varName?_of_kind (by simp [(isSymbol_iff.1 h).1])

/-- Puts tokens in the place of a variable. -/
def graft (x : String) (scion tokens : List Token) : List Token :=
  tokens.flatMap fun token => if token.varName? = some x then scion else [token]

variable {x : String} {scion : List Token} {token : Token}

theorem graft_append (front back : List Token) :
    graft x scion (front ++ back) = graft x scion front ++ graft x scion back :=
  List.flatMap_append

theorem graft_place (h : token.varName? = some x) (rest : List Token) :
    graft x scion (token :: rest) = scion ++ graft x scion rest := by
  rw [graft, List.flatMap_cons, if_pos h, graft]

theorem graft_other (h : token.varName? ≠ some x) (rest : List Token) :
    graft x scion (token :: rest) = token :: graft x scion rest := by
  rw [graft, List.flatMap_cons, if_neg h, graft, List.singleton_append]

theorem graft_symbol {c : Char} (h : token.isSymbol c = true) (rest : List Token) :
    graft x scion (token :: rest) = token :: graft x scion rest :=
  graft_other (by simp [varName?_of_isSymbol h]) rest

theorem graft_kind (h : token.kind ≠ .var) (rest : List Token) :
    graft x scion (token :: rest) = token :: graft x scion rest :=
  graft_other (by simp [varName?_of_kind h]) rest

/-- Where the variable does not stand, nothing is replaced. -/
theorem graft_of_notMem {tokens : List Token} (h : x ∉ tokens.filterMap varName?) :
    graft x scion tokens = tokens := by
  induction tokens with
  | nil => rfl
  | cons token rest ih =>
    have hrest : x ∉ rest.filterMap varName? := fun hx => h (by
      rw [List.mem_filterMap] at hx ⊢
      obtain ⟨other, hother, hname⟩ := hx
      exact ⟨other, List.mem_cons_of_mem _ hother, hname⟩)
    have htoken : token.varName? ≠ some x := fun hname =>
      h (List.mem_filterMap.2 ⟨token, List.mem_cons_self, hname⟩)
    rw [graft_other htoken, ih hrest]

/-- No name stands directly in front of the variable, where parentheses would be those of a call. -/
def Detached (x : String) (tokens : List Token) : Prop :=
  tokens.IsChain fun name next => name.kind = .identifier → next.varName? ≠ some x

end Token

/-! ## 2. Phrases in front of more tokens -/

namespace Grammar

theorem OpensNothing.append {rest more : List Token} (hrest : OpensNothing rest)
    (hmore : OpensNothing more) : OpensNothing (rest ++ more) := by
  cases rest with
  | nil => exact hmore
  | cons next after => exact hrest

end Grammar

namespace Derives

open Grammar

variable {registry : Registry} {more : List Token}

mutual

/-- **A phrase is one in front of any tokens that do not open a parenthesis.** -/
theorem append (hmore : OpensNothing more) : ∀ {p : Phrase} {tokens rest : List Token} {e : Expr},
    Derives registry p tokens rest e → Derives registry p (tokens ++ more) (rest ++ more) e
  | _, _, _, _, .product h => .product (h.append hmore)
  | _, _, _, _, .power h => .power (h.append hmore)
  | _, _, _, _, .signed h => .signed (h.append hmore)
  | _, _, _, _, .primary h => .primary (h.append hmore)
  | _, _, _, _, .add hsymbol hoperator hl hr =>
    .add hsymbol hoperator (hl.append hmore) (hr.append hmore)
  | _, _, _, _, .multiply hsymbol hoperator hl hr =>
    .multiply hsymbol hoperator (hl.append hmore) (hr.append hmore)
  | _, _, _, _, .juxtapose hfirst hl hr => .juxtapose hfirst (hl.append hmore) (hr.append hmore)
  | _, _, _, _, .raise hoperator hl hr => .raise hoperator (hl.append hmore) (hr.append hmore)
  | _, _, _, _, .minus hsign h => .minus hsign (h.append hmore)
  | _, _, _, _, .plus hsign h => .plus hsign (h.append hmore)
  | _, _, _, _, .literal hkind hvalue => .literal hkind hvalue
  | _, _, _, _, .var hkind => .var hkind
  | _, _, _, _, .call hname hopening hfunction harity h =>
    .call hname hopening hfunction harity (append_arguments hmore h)
  | _, _, _, _, .callEmpty hname hopening hclosing hfunction harity =>
    .callEmpty hname hopening hclosing hfunction harity
  | _, _, _, _, .constant hname hnext hfound =>
    .constant hname (OpensNothing.append hnext hmore) hfound
  | _, _, _, _, .group hopening hclosing h => .group hopening hclosing (h.append hmore)

theorem append_arguments (hmore : OpensNothing more) :
    ∀ {tokens rest : List Token} {es : List Expr}, DerivesArguments registry tokens rest es →
      DerivesArguments registry (tokens ++ more) (rest ++ more) es
  | _, _, _, .last hclosing h => .last hclosing (h.append hmore)
  | _, _, _, .more hcomma h hes => .more hcomma (h.append hmore) (append_arguments hmore hes)

end

/-! ## 3. Variables of a phrase -/

theorem readsLeaves_varName : ReadsLeaves Token.varName? Expr.varName? where
  other _ hvar := if_neg hvar
  literal hkind _ := if_neg (by simp [hkind])
  var hkind := if_pos hkind
  zero := rfl
  constant _ _ := rfl
  binary _ _ _ := rfl
  call _ _ := rfl

theorem filterMap_varName (e : Expr) : e.nodes.filterMap Expr.varName? = e.variableNames := by
  induction e with
  | number | constant | var => rfl
  | binary symbol left right ihleft ihright =>
    rw [readsLeaves_varName.nodes_binary, ihleft, ihright, Expr.variableNames]
  | call name arguments ih =>
    rw [readsLeaves_varName.nodes_call, Expr.variableNames]
    induction arguments with
    | nil => rfl
    | cons a rest ihrest =>
      obtain ⟨ha, hrest⟩ := List.forall_mem_cons.1 ih
      rw [Expr.nodesAll, List.filterMap_append, ha, ihrest hrest, Expr.variableNamesAll]

/-- **The variables of a phrase are those of its tokens**, each as often and in the same order. -/
theorem variableNames {p : Phrase} {tokens rest : List Token} {e : Expr}
    (h : Derives registry p tokens rest e) :
    tokens.filterMap Token.varName? = e.variableNames ++ rest.filterMap Token.varName? := by
  rw [h.leaves readsLeaves_varName, filterMap_varName]

end Derives

/-! ## 4. Grafting a phrase -/

/-- A formula in parentheses, which may stand where a variable may. -/
structure Scion (registry : Registry) where
  opening : Token
  inner : List Token
  closing : Token
  tree : Expr
  isSymbol_opening : opening.isSymbol '(' = true
  isSymbol_closing : closing.isSymbol ')' = true
  derives : Derives registry .sum inner [] tree

namespace Scion

variable {registry : Registry} (scion : Scion registry)

/-- The formula with its parentheses. -/
def tokens : List Token := scion.opening :: scion.inner ++ [scion.closing]

/-- **In parentheses a formula is a value**, whatever follows. -/
theorem derives_primary (rest : List Token) :
    Derives registry .primary (scion.tokens ++ rest) rest scion.tree := by
  have hrest := Grammar.opensNothing_symbol scion.isSymbol_closing (by decide) rest
  have hinner := scion.derives.append hrest
  rw [tokens, List.append_assoc]
  exact .group scion.isSymbol_opening scion.isSymbol_closing hinner

/-- A token that begins a value is replaced by tokens that do. -/
theorem startsOperand_graft {x : String} {token : Token} (h : token.startsOperand = true)
    (rest : List Token) :
    ∃ first middle, Token.graft x scion.tokens (token :: rest) = first :: middle ∧
      first.startsOperand = true := by
  by_cases hx : token.varName? = some x
  · refine ⟨scion.opening, scion.inner ++ [scion.closing] ++ Token.graft x scion.tokens rest, ?_, ?_⟩
    · rw [Token.graft_place hx, tokens, List.cons_append, List.cons_append]
    · have hkind := (Token.isSymbol_iff.1 scion.isSymbol_opening).1
      rw [Token.startsOperand, hkind]
      exact scion.isSymbol_opening
  · exact ⟨token, _, Token.graft_other hx rest, h⟩

end Scion

namespace Derives

open Grammar

variable {registry : Registry} (scion : Scion registry) {x : String}

/-- What follows a phrase is free if its tokens are. -/
theorem detached {p : Phrase} {tokens rest : List Token} {e : Expr} (h : Derives registry p tokens rest e)
    (hdetached : Token.Detached x tokens) : Token.Detached x rest :=
  hdetached.suffix h.suffix

/-- After a name no parenthesis takes the place of the variable. -/
theorem opensNothing_graft {name : Token} {rest : List Token} (hname : name.kind = .identifier)
    (hdetached : Token.Detached x (name :: rest)) (hrest : OpensNothing rest) :
    OpensNothing (Token.graft x scion.tokens rest) := by
  cases rest with
  | nil => exact opensNothing_nil
  | cons next after =>
    have hnext : next.varName? ≠ some x := (List.isChain_cons_cons.1 hdetached).1 hname
    rw [Token.graft_other hnext]
    exact hrest

mutual

/-- **A phrase stays one when a formula in parentheses takes the place of a variable.** -/
theorem graft : ∀ {p : Phrase} {tokens rest : List Token} {e : Expr},
    Derives registry p tokens rest e → Token.Detached x tokens →
      Derives registry p (Token.graft x scion.tokens tokens) (Token.graft x scion.tokens rest)
        (e.graft x scion.tree)
  | _, _, _, _, .product h, hdetached => .product (h.graft hdetached)
  | _, _, _, _, .power h, hdetached => .power (h.graft hdetached)
  | _, _, _, _, .signed h, hdetached => .signed (h.graft hdetached)
  | _, _, _, _, .primary h, hdetached => .primary (h.graft hdetached)
  | _, _, _, _, .add hsymbol hoperator hl hr, hdetached => by
    have hleft := hl.graft hdetached
    rw [Token.graft_symbol hoperator] at hleft
    exact .add hsymbol hoperator hleft (hr.graft (hl.detached hdetached).tail)
  | _, _, _, _, .multiply hsymbol hoperator hl hr, hdetached => by
    have hleft := hl.graft hdetached
    rw [Token.graft_symbol hoperator] at hleft
    exact .multiply hsymbol hoperator hleft (hr.graft (hl.detached hdetached).tail)
  | _, _, _, _, .juxtapose hfirst hl hr, hdetached => by
    have hleft := hl.graft hdetached
    have hright := hr.graft (hl.detached hdetached)
    obtain ⟨first, middle, hgraft, hstarts⟩ := scion.startsOperand_graft hfirst _
    rw [hgraft] at hleft hright
    exact .juxtapose hstarts hleft hright
  | _, _, _, _, .raise hoperator hl hr, hdetached => by
    have hleft := hl.graft hdetached
    rw [Token.graft_symbol hoperator] at hleft
    exact .raise hoperator hleft (hr.graft (hl.detached hdetached).tail)
  | _, _, _, _, .minus hsign h, hdetached => by
    rw [Token.graft_symbol hsign]
    exact .minus hsign (h.graft hdetached.tail)
  | _, _, _, _, .plus hsign h, hdetached => by
    rw [Token.graft_symbol hsign]
    exact .plus hsign (h.graft hdetached.tail)
  | _, _, _, _, .literal hkind hvalue, _ => by
    rw [Token.graft_kind (by simp [hkind])]
    exact .literal hkind hvalue
  | _, _, _, _, @Derives.var _ token _ hkind, _ => by
    have hname : token.varName? = some (Expr.variableName token.text) := if_pos hkind
    rw [Expr.graft]
    split
    · rename_i hx
      rw [Token.graft_place (hname.trans (congrArg some hx))]
      exact scion.derives_primary _
    · rename_i hx
      rw [Token.graft_other (by simpa [hname] using hx)]
      exact .var hkind
  | _, _, _, _, .call hname hopening hfunction harity h, hdetached => by
    rw [Token.graft_kind (by simp [hname]), Token.graft_symbol hopening]
    rw [← Expr.length_graftAll _ x scion.tree] at harity
    exact .call hname hopening hfunction harity (graft_arguments h hdetached.tail.tail)
  | _, _, _, _, .callEmpty hname hopening hclosing hfunction harity, _ => by
    rw [Token.graft_kind (by simp [hname]), Token.graft_symbol hopening,
      Token.graft_symbol hclosing]
    exact .callEmpty hname hopening hclosing hfunction harity
  | _, _, _, _, .constant hname hnext hfound, hdetached => by
    rw [Token.graft_kind (by simp [hname])]
    exact .constant hname (opensNothing_graft scion hname hdetached hnext) hfound
  | _, _, _, _, .group hopening hclosing h, hdetached => by
    have hinner := h.graft hdetached.tail
    rw [Token.graft_symbol hclosing] at hinner
    rw [Token.graft_symbol hopening]
    exact .group hopening hclosing hinner

theorem graft_arguments : ∀ {tokens rest : List Token} {es : List Expr},
    DerivesArguments registry tokens rest es → Token.Detached x tokens →
      DerivesArguments registry (Token.graft x scion.tokens tokens)
        (Token.graft x scion.tokens rest) (Expr.graftAll es x scion.tree)
  | _, _, _, .last hclosing h, hdetached => by
    have hlast := h.graft hdetached
    rw [Token.graft_symbol hclosing] at hlast
    exact .last hclosing hlast
  | _, _, _, .more hcomma h hes, hdetached => by
    have hfirst := h.graft hdetached
    rw [Token.graft_kind (by simp [hcomma])] at hfirst
    exact .more hcomma hfirst (graft_arguments hes (h.detached hdetached).tail)

end

end Derives

/-! ## 5. Grafting a whole formula -/

namespace Grammar

open Formula.Expr

variable {registry : Registry} {stop innerStop graftedStop : Nat} {pre ts post : List Token}
  {place opening closing : Token} {x : String} {host scion : Expr}

/-- A variable of which there is one is free if no name stands in front of it. -/
theorem detached_of_last (hpre : x ∉ pre.filterMap Token.varName?)
    (hpost : x ∉ post.filterMap Token.varName?)
    (hplace : place.varName? = some x)
    (hlast : ∀ last ∈ pre.getLast?, last.kind ≠ .identifier) :
    Token.Detached x (pre ++ place :: post) := by
  have hdetached {tokens : List Token} (h : x ∉ tokens.filterMap Token.varName?) :
      Token.Detached x tokens :=
    List.Pairwise.isChain (List.pairwise_of_forall_mem_list fun _ _ next hnext _ hx =>
      h (List.mem_filterMap.2 ⟨next, hnext, hx⟩))
  have hnot : place.kind ≠ .identifier := by
    rintro hkind
    simp [Token.varName?, hkind] at hplace
  refine List.isChain_append.2 ⟨hdetached hpre, List.isChain_cons.2 ⟨?_, hdetached hpost⟩, ?_⟩
  · exact fun _ _ hkind => absurd hkind hnot
  · exact fun last hmem _ _ hkind => absurd hkind (hlast last hmem)

/-- **A formula in parentheses may stand wherever a variable may.** If a formula has a variable that
    stands nowhere else in it, and no name directly before it, then any other formula may take its
    place in parentheses. The tree of the whole is the tree of the host with the other tree as a
    graft on the one leaf of the variable, whatever surrounds the place. -/
theorem ofTokens_grafted (hpre : Token.AllSingle pre) (hts : Token.AllSingle ts)
    (hpost : Token.AllSingle post) (hplace : place.varName? = some x)
    (hfresh : x ∉ (pre ++ post).filterMap Token.varName?)
    (hlast : ∀ last ∈ pre.getLast?, last.kind ≠ .identifier)
    (hopening : opening.isSymbol '(' = true) (hclosing : closing.isSymbol ')' = true)
    (hhost : ofTokens registry stop (pre ++ place :: post) = .ok host)
    (hscion : ofTokens registry innerStop ts = .ok scion) :
    host.variableNames.count x = 1 ∧
      ofTokens registry graftedStop (pre ++ opening :: ts ++ closing :: post) =
        .ok (host.graft x scion) := by
  rw [List.filterMap_append, List.mem_append, not_or] at hfresh
  obtain ⟨hnotpre, hnotpost⟩ := hfresh
  have hkind : place.kind = .var := by
    by_contra hkind
    simp [Token.varName?_of_kind hkind] at hplace
  have hsingle : Token.AllSingle (pre ++ place :: post) := by
    intro token htoken
    rcases List.mem_append.1 htoken with htoken | htoken
    · exact hpre token htoken
    · rcases List.mem_cons.1 htoken with rfl | htoken
      · exact fun hoperator => by simp [hkind] at hoperator
      · exact hpost token htoken
  have hderives := derives_of_ofTokens hsingle hhost
  have hnames := hderives.variableNames
  constructor
  · rw [List.filterMap_nil, List.append_nil] at hnames
    rw [← hnames, List.filterMap_append, List.filterMap_cons_some hplace, List.count_append,
      List.count_cons_self, List.count_eq_zero.2 hnotpre, List.count_eq_zero.2 hnotpost]
  · let graft : Scion registry :=
      ⟨opening, ts, closing, scion, hopening, hclosing, derives_of_ofTokens hts hscion⟩
    have htokens : Token.graft x graft.tokens (pre ++ place :: post) =
        pre ++ opening :: ts ++ closing :: post := by
      rw [Token.graft_append, Token.graft_place hplace, Token.graft_of_notMem hnotpre,
        Token.graft_of_notMem hnotpost]
      simp [graft, Scion.tokens]
    have hgrafted := hderives.graft graft (detached_of_last hnotpre hnotpost hplace hlast)
    rw [htokens] at hgrafted
    exact ofTokens_of_derives hgrafted

/-- The tokens of `max(-` and of `^$y, $z)`, the two sides of a base. -/
def aroundBase : List Token × List Token :=
  ([⟨"max", .identifier, 0⟩, ⟨"(", .operator, 3⟩, ⟨"-", .operator, 4⟩],
    [⟨"^", .operator, 7⟩, ⟨"$y", .var, 8⟩, ⟨",", .comma, 10⟩, ⟨"$z", .var, 12⟩, ⟨")", .operator, 14⟩])

/-- The sum of two variables becomes the base of a power, under a sign in an argument of a call. -/
theorem ofTokens_grafted_base :
    (Expr.call "max" [.binary '^' (.negation (.var "x")) (.var "y"), .var "z"]).variableNames.count
        "x" = 1 ∧
      ofTokens .standard 19 (aroundBase.1 ++ ⟨"(", .operator, 5⟩ ::
          [⟨"$a", .var, 6⟩, ⟨"+", .operator, 8⟩, ⟨"$b", .var, 9⟩] ++
          ⟨")", .operator, 11⟩ :: aroundBase.2) =
        .ok (.call "max" [.binary '^' (.negation (.binary '+' (.var "a") (.var "b"))) (.var "y"),
          .var "z"]) := by
  have hvar (text : String) (position : Nat) (rest : List Token) :
      Derives .standard .signed (⟨text, .var, position⟩ :: rest) rest
        (.var (Expr.variableName text)) := .primary (.var rfl)
  have hpower : Derives .standard .power
      (⟨"-", .operator, 4⟩ :: ⟨"$x", .var, 5⟩ :: aroundBase.2) (aroundBase.2.drop 2)
      (.binary '^' (.negation (.var "x")) (.var "y")) :=
    .raise rfl (.minus rfl (hvar "$x" 5 _)) (.signed (hvar "$y" 8 _))
  have hcall : Derives .standard .primary (aroundBase.1 ++ ⟨"$x", .var, 5⟩ :: aroundBase.2) []
      (.call "max" [.binary '^' (.negation (.var "x")) (.var "y"), .var "z"]) :=
    .call rfl rfl rfl rfl (.more rfl (.product (.power hpower))
      (.last rfl (.product (.power (.signed (hvar "$z" 12 _))))))
  have hsum : Derives .standard .sum
      [⟨"$a", .var, 6⟩, ⟨"+", .operator, 8⟩, ⟨"$b", .var, 9⟩] []
      (.binary '+' (.var "a") (.var "b")) :=
    .add (List.mem_cons_self) rfl (.product (.power (.signed (hvar "$a" 6 _))))
      (.power (.signed (hvar "$b" 9 _)))
  exact ofTokens_grafted (by decide) (by decide) (by decide) rfl (by decide) (by decide) rfl rfl
    (ofTokens_of_derives hcall.toSum : ofTokens .standard 15 _ = _)
    (ofTokens_of_derives hsum : ofTokens .standard 5 _ = _)

end Grammar

end Formula
