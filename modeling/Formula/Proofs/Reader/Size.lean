import Formula.Proofs.Grammar.Completeness
import Formula.Proofs.Token.Place
import Formula.Proofs.Tree.Nodes

/-!
# The size of a tree that is read

Not every node of a tree has a token: a product without an operator has none, and a minus sign stands for
two nodes. What a tree does need is a token for each leaf, the zero of a negation among them, and two
tokens for each call. These are counted by `Expr.weight`.

* `Expr.depth_le_weight` and `Expr.nodes_lt_weight`: the weight bounds the height and the number of nodes.
  Both are facts about trees only.
* `Reader.weight_closed`: a step takes as many tokens as the tree weighs that it gives. An operator loop
  has the weight of the left operand to start with.
* `Token.length_le_of_source`: a source has no more tokens than bytes.

`Expr.ofTokens_size` puts them together, and `Expr.ofTokens_size_reached` says that no smaller bound holds.
-/

namespace Formula

/-! ## 1. Weight -/

namespace Expr

mutual

/-- The tokens that no spelling of a tree can do without: one for each leaf, a name and a parenthesis
    for each call, and the sign that follows each argument. -/
def weight : Expr → Nat
  | number _ _ | constant _ _ | var _ => 1
  | binary _ left right => left.weight + right.weight
  | call _ arguments => 2 + weightAll arguments

/-- The weight of arguments, each with the comma or the parenthesis after it. -/
def weightAll : List Expr → Nat
  | [] => 0
  | e :: rest => e.weight + 1 + weightAll rest

end

theorem weight_pos (e : Expr) : 0 < e.weight := by
  induction e with
  | number | constant | var => exact Nat.one_pos
  | binary symbol left right ihleft _ => exact Nat.add_pos_left ihleft _
  | call name arguments => rw [weight]; omega

theorem weight_negation (e : Expr) : e.negation.weight = 1 + e.weight := rfl

theorem depthAll_le_weightAll {arguments : List Expr} (h : ∀ a ∈ arguments, a.depth ≤ a.weight) :
    depthAll arguments ≤ weightAll arguments := by
  induction arguments with
  | nil => exact Nat.le_refl 0
  | cons a rest ih =>
    obtain ⟨ha, hrest⟩ := List.forall_mem_cons.1 h
    have := ih hrest
    rw [depthAll, weightAll]
    omega

/-- **A tree is at most as high as its weight.** -/
theorem depth_le_weight (e : Expr) : e.depth ≤ e.weight := by
  induction e with
  | number | constant | var => exact Nat.le_refl 1
  | binary symbol left right ihleft ihright =>
    -- each operand weighs something, so the sum leaves room for the root
    have hleft := left.weight_pos
    have hright := right.weight_pos
    rw [depth, weight]
    omega
  | call name arguments ih =>
    have := depthAll_le_weightAll ih
    rw [depth, weight]
    omega

theorem nodesAll_le_weightAll {arguments : List Expr}
    (h : ∀ a ∈ arguments, a.nodes.length < 2 * a.weight) :
    (nodesAll arguments).length ≤ 2 * weightAll arguments := by
  induction arguments with
  | nil => exact Nat.le_refl 0
  | cons a rest ih =>
    obtain ⟨ha, hrest⟩ := List.forall_mem_cons.1 h
    have := ih hrest
    rw [nodesAll, weightAll, List.length_append]
    omega

/-- **A tree has less than twice as many nodes as its weight.** -/
theorem nodes_lt_weight (e : Expr) : e.nodes.length < 2 * e.weight := by
  induction e with
  | number | constant | var => exact Nat.one_lt_two
  | binary symbol left right ihleft ihright =>
    rw [nodes, weight, List.length_cons, List.length_append]
    omega
  | call name arguments ih =>
    have := nodesAll_le_weightAll ih
    rw [nodes, weight, List.length_cons]
    omega

end Expr

/-! ## 2. Tokens taken -/

namespace Reader

variable {registry : Registry} {stop : Nat}

/-- **Each step takes at least the weight of what it gives**, if the steps that it calls do. -/
theorem weight_closed : Closed registry stop
    (fun tokens => ∀ e rest, unary registry stop tokens = .ok (e, rest) →
      e.weight + rest.length ≤ tokens.length)
    (fun token tokens => ∀ e rest, primary registry stop token tokens = .ok (e, rest) →
      e.weight + rest.length ≤ tokens.length + 1)
    (fun tokens => ∀ es rest, arguments registry stop tokens = .ok (es, rest) →
      Expr.weightAll es + rest.length ≤ tokens.length)
    (fun tokens => ∀ es rest, items registry stop tokens = .ok (es, rest) →
      Expr.weightAll es + rest.length ≤ tokens.length)
    (fun weakest tokens => ∀ e rest, binary registry stop weakest tokens = .ok (e, rest) →
      e.weight + rest.length ≤ tokens.length)
    (fun weakest left tokens => ∀ e rest, chain registry stop weakest left tokens = .ok (e, rest) →
      e.weight + rest.length ≤ left.weight + tokens.length) where
  unary_nil e rest h := by
    rw [unary_nil] at h
    cases h
  unary_cons token tokens hunary hprimary e rest h := by
    rw [List.length_cons]
    cases unary_read h with
    | minus _ hread =>
      have := hunary _ _ hread
      rw [Expr.weight_negation]
      omega
    | plus _ hread => exact Nat.le_succ_of_le (hunary _ _ hread)
    | primary hread => exact hprimary _ _ hread
  primary token tokens hbinary harguments e rest h := by
    cases primary_read h with
    | literal | var | constant => exact Nat.le_of_eq (Nat.add_comm 1 _)
    | group _ hread =>
      have := hbinary _ _ hread
      rw [List.length_cons] at this
      omega
    | call _ _ _ hread =>
      have := harguments _ _ rfl _ _ hread
      rw [Expr.weight, List.length_cons]
      omega
  arguments tokens hitems es rest h := by
    cases arguments_read h with
    | none => rw [Expr.weightAll, List.length_cons]; omega
    | some hread => exact hitems _ _ hread
  items tokens hbinary hitems es rest h := by
    cases items_read h with
    | last hread =>
      have := hbinary _ _ hread
      rw [List.length_cons] at this
      rw [Expr.weightAll, Expr.weightAll]
      omega
    | more hread _ hrest =>
      have hfirst := hbinary _ _ hread
      have hmore := hitems _ _ _ hread _ _ hrest
      rw [List.length_cons] at hfirst
      rw [Expr.weightAll]
      omega
  binary weakest tokens hunary hchain e rest h := by
    obtain ⟨left, after, hleft, hrest⟩ := binary_ok h
    exact Nat.le_trans (hchain _ _ hleft _ _ hrest) (hunary _ _ hleft)
  chain weakest left tokens hstep e rest h := by
    cases chain_read h with
    | done => exact Nat.le_refl _
    | @step token tokens after _ joint right _ hjoint _ hright hrest =>
      -- an unwritten product takes no token itself, and its right operand weighs what it takes
      obtain ⟨hbinary, hchain⟩ := hstep _ _ _ rfl hjoint
      have hoperand := hbinary _ _ hright
      have hwhole := hchain _ _ hright _ _ hrest
      have hjoined := joint.operandTokens_length_le token tokens
      rw [Expr.weight] at hwhole
      rw [List.length_cons]
      omega

/-- A whole row of tokens is at least as long as its tree is heavy. -/
theorem weight_le_tokens {tokens : List Token} {e : Expr}
    (h : Expr.ofTokens registry stop tokens = .ok e) : e.weight ≤ tokens.length :=
  weight_closed.at_binary 0 tokens e [] (ofTokens_ok_iff.1 h)

end Reader

/-! ## 3. Tokens of a source -/

namespace Token

/-- No more tokens are split off a text than it has bytes. -/
theorem Splits.length_le {position : Nat} {text rest : List Char} {tokens : List Token}
    (h : Splits position text tokens rest) :
    tokens.length + Source.width rest ≤ Source.width text := by
  induction h with
  | done => exact Nat.le_of_eq (Nat.zero_add _)
  | blank _ _ ih =>
    rw [Source.width_cons]
    exact Nat.le_add_left_of_le ih
  | @lexeme position lexeme text rest token tokens hfits _ _ _ _ ih =>
    obtain ⟨c, more, rfl⟩ := List.exists_cons_of_ne_nil hfits.ne_nil
    have hc := c.utf8Size_pos
    rw [List.length_cons, Source.width_append, Source.width_cons]
    omega

/-- **A source has no more tokens than bytes.** -/
theorem length_le_of_source {source : String} {tokens : List Token}
    (h : ofSource source = .ok tokens) : tokens.length ≤ source.utf8ByteSize := by
  have hsplit := (splits_of_scan h).length_le
  rwa [Source.width_nil, Nat.add_zero, Source.width_toList] at hsplit

end Token

/-! ## 4. Size -/

namespace Expr

/-- **The size of a tree is linear in its input.** Whatever the registry, a tree that is read from tokens of
    any kind is at most as high as there are tokens, and its nodes, the zeros of negations among them, are
    less than twice as many. A source has no more tokens than bytes, so a limit on the length of a source
    is a limit on every tree that it gives. -/
theorem ofTokens_size (registry : Registry) :
    (∀ stop tokens e, ofTokens registry stop tokens = .ok e →
      e.depth ≤ tokens.length ∧ e.nodes.length ≤ 2 * tokens.length - 1) ∧
    (∀ source tokens, Token.ofSource source = .ok tokens → tokens.length ≤ source.utf8ByteSize) ∧
    ∀ limit source e, source.utf8ByteSize ≤ limit → ofSource registry source = .ok e →
      e.depth ≤ limit ∧ e.nodes.length ≤ 2 * limit - 1 := by
  have hsize (stop : Nat) (tokens : List Token) (e : Expr)
      (h : ofTokens registry stop tokens = .ok e) :
      e.depth ≤ tokens.length ∧ e.nodes.length ≤ 2 * tokens.length - 1 := by
    have hweight := Reader.weight_le_tokens h
    have hdepth := e.depth_le_weight
    have hnodes := e.nodes_lt_weight
    omega
  refine ⟨hsize, fun source tokens h => Token.length_le_of_source h, fun limit source e hlimit h => ?_⟩
  obtain ⟨tokens, htokens, hderives⟩ := Grammar.ofSource_iff_derives.1 h
  have hlength := Token.length_le_of_source htokens
  obtain ⟨hdepth, hnodes⟩ := hsize 0 tokens e (Grammar.ofTokens_of_derives hderives)
  omega

/-- The tokens of a sign in front of a product without an operator. -/
def signedProduct : List Token := [⟨"-", .operator, 0⟩, ⟨"$x", .var, 1⟩, ⟨"$y", .var, 3⟩]

/-- Three tokens of five bytes. They give three levels and five nodes, as many as three tokens can. -/
theorem ofTokens_size_signedProduct :
    ofTokens .standard 5 signedProduct = .ok (.binary '*' (.negation (.var "x")) (.var "y")) ∧
      (Expr.binary '*' (.negation (.var "x")) (.var "y")).depth ≤ 3 ∧
      (Expr.binary '*' (.negation (.var "x")) (.var "y")).nodes.length ≤ 2 * 3 - 1 ∧
      Token.ofSource "-$x$y" = .ok signedProduct ∧ 3 ≤ "-$x$y".utf8ByteSize ∧
      (Expr.binary '*' (.negation (.var "x")) (.var "y")).nodes.length ≤ 2 * 5 - 1 := by
  have hderives : Derives .standard .sum signedProduct []
      (.binary '*' (.negation (.var "x")) (.var "y")) := by
    have hleft : Derives .standard .signed signedProduct [⟨"$y", .var, 3⟩]
        (.negation (.var "x")) := .minus rfl (.primary (.var rfl))
    have hright : Derives .standard .signed [⟨"$y", .var, 3⟩] [] (.var "y") :=
      .primary (.var rfl)
    exact .product (.juxtapose rfl (.power (.signed hleft)) (.signed hright))
  have hread : ofTokens .standard 5 signedProduct = .ok _ := Grammar.ofTokens_of_derives hderives
  have hscan : Token.ofSource "-$x$y" = .ok signedProduct := by
    simp +decide [Token.ofSource, Token.scan, Token.lexeme?, Token.ofLexeme, signedProduct]
  have hsource := Grammar.ofSource_iff_derives.2 ⟨_, hscan, hderives⟩
  obtain ⟨hsize, hlength, hlimit⟩ := ofTokens_size .standard
  obtain ⟨hdepth, hnodes⟩ := hsize 5 signedProduct _ hread
  exact ⟨hread, hdepth, hnodes, hscan, hlength _ _ hscan, (hlimit 5 _ _ (by decide) hsource).2⟩

/-- **The bounds are reached**, by signs in front of a variable: a sign is one token, one level and two
    nodes. -/
theorem ofTokens_size_reached (registry : Registry) (stop n : Nat) :
    ∃ tokens e, tokens.length = n + 1 ∧ ofTokens registry stop tokens = .ok e ∧
      e.depth = n + 1 ∧ e.nodes.length = 2 * (n + 1) - 1 := by
  suffices hsigned : ∃ tokens e, tokens.length = n + 1 ∧
      Derives registry .signed tokens [] e ∧ e.depth = n + 1 ∧ e.nodes.length = 2 * n + 1 by
    obtain ⟨tokens, e, hlength, hderives, hsize⟩ := hsigned
    have hread : ofTokens registry stop tokens = .ok e :=
      Grammar.ofTokens_of_derives (.product (.power (.signed hderives)))
    exact ⟨tokens, e, hlength, hread, hsize⟩
  induction n with
  | zero => exact ⟨[⟨"$x", .var, 0⟩], .var "x", rfl, .primary (.var rfl), rfl, rfl⟩
  | succ n ih =>
    obtain ⟨tokens, e, hlength, hderives, hdepth, hnodes⟩ := ih
    refine ⟨⟨"-", .operator, 0⟩ :: tokens, .negation e, ?_, .minus rfl hderives, ?_, ?_⟩
    · rw [List.length_cons, hlength]
    · rw [negation, depth, depth, hdepth]
      omega
    · rw [negation, nodes, nodes, List.length_cons, List.length_append, hnodes, List.length_singleton]
      omega

end Expr

end Formula
