import Whim.ExpressionParser

/-!
# Parsing follows the precedence table

The trees in which every child that the levels and their associativity do not allow is parenthesized are parsed from
their tokens.
-/

namespace Whim.ExpressionParser

open TokenKind List Option

variable {X T : Type}

namespace Expression

def tokens : Expression X T → List Token
  | literal token | variable_ token | constant token => [token]
  | parenthesized left expression right => left::(expression.tokens++[right])
  | unaryPrefix operator operand => operator::operand.tokens
  | binary lhs _ token rhs => lhs.tokens++token::rhs.tokens
  | assignment (.variable_ token) operator value => token::operator::value.tokens
  | assignment (.other _) operator value => operator::value.tokens
  | conditional condition mark then_ separator otherwise =>
    condition.tokens++mark::(then_.tokens++separator::otherwise.tokens)
  | typeOperation operand operator _ => operand.tokens++operator
  | other _ => []

/-- The level of the operator at the root. -/
def level : Expression X T → Precedence
  | unaryPrefix _ _ => .unary
  | binary _ operator _ _ => operator.precedence
  | assignment _ _ _ => .assignment
  | conditional _ _ _ _ _ => .conditional
  | typeOperation _ _ _ => .typeOperation
  | _ => .highest

/-- Allowed unparenthesized to the left of an operator. -/
def AllowedLeft (operator : Precedence) (child : Expression X T) : Prop :=
  operator.rank < child.level.rank ∨ child.level = operator ∧ operator.associativity = some .left

/-- Allowed unparenthesized to the right of an operator. -/
def AllowedRight (operator : Precedence) (child : Expression X T) : Prop :=
  operator.rank < child.level.rank ∨ child.level = operator ∧ operator.associativity = some .right

/-- How many nested calls the expression takes below the call that parses it. -/
def nesting : Expression X T → ℕ
  | parenthesized _ expression _ => expression.nesting+1
  | unaryPrefix _ operand => operand.nesting+1
  | binary lhs _ _ rhs => max lhs.nesting (rhs.nesting+1)
  | assignment _ _ value => value.nesting+1
  | conditional condition _ then_ _ otherwise => max condition.nesting (max then_.nesting otherwise.nesting+1)
  | _ => 0

end Expression

def isLiteral : TokenKind → Bool
  | literalString | literalInteger | literalSignedInteger | literalUnsignedInteger | literalFloat | true_ | false_
  | null => true
  | _ => false

def isName : TokenKind → Bool
  | qualifiedIdentifier | fullyQualifiedIdentifier => true
  | kind => kind.isConstantName

/-- The expressions that follow the table, with tokens of the right kinds. -/
def FollowsTable (others : Others X T) : Expression X T → Prop
  | .literal token => isLiteral token.kind = true ∧ others.literalOf token = .ok ()
  | .variable_ token => token.kind = TokenKind.variable_
  | .constant name => isName name.kind = true
  | .parenthesized left expression right =>
    left.kind = leftParenthesis ∧ right.kind = rightParenthesis ∧ FollowsTable others expression
  | .unaryPrefix operator operand =>
    operator.kind ∈ [bang,tilde,plus,minus] ∧ Precedence.unary.rank ≤ operand.level.rank ∧ FollowsTable others operand
  | .binary lhs operator token rhs =>
    binaryOperator token.kind = some operator ∧ lhs.AllowedLeft operator.precedence ∧
      rhs.AllowedRight operator.precedence ∧ FollowsTable others lhs ∧ FollowsTable others rhs
  | .assignment (.variable_ token) operator value =>
    token.kind = TokenKind.variable_ ∧ operator.kind.isAssignment = true ∧ value.AllowedRight .assignment ∧
      FollowsTable others value
  | .conditional condition mark then_ separator otherwise =>
    mark.kind = question ∧ separator.kind = colon ∧ condition.AllowedLeft .conditional ∧
      otherwise.AllowedRight .conditional ∧ FollowsTable others condition ∧ FollowsTable others then_ ∧
      FollowsTable others otherwise
  | .assignment (.other _) _ _ | .typeOperation _ _ _ | .other _ => False

section

/-- The next token is no postfix operator, and does not make a call of a name. -/
def Clear : List Token → Prop
  | [] => True
  | token::_ => token.kind.isPostfix = false ∧ token.kind ≠ bang

/-- The loop of a call with the minimum stops here. -/
def Halts (noAs : Bool) (min : Precedence) : List Token → Prop
  | [] => True
  | token::rest => token.kind.isPostfix = false ∧
    (token.kind = as_ ∧ noAs = true ∨ operatorPrecedence (token::rest) = .lowest ∨
      attaches (operatorPrecedence (token::rest)) min = false)

/-- The next token continues no expression. -/
def Ends (noAs : Bool) : List Token → Prop
  | [] => True
  | token::_ => token.kind.isPostfix = false ∧ token.kind ≠ bang ∧
    (token.kind = as_ ∧ noAs = true ∨ token.kind.infixLevel = .lowest)

/-- No call below the expression takes the next token. -/
def Stops (noAs : Bool) : Expression X T → List Token → Prop
  | .unaryPrefix _ operand, rest => Halts noAs .unary rest ∧ Stops noAs operand rest
  | .binary _ operator _ rhs, rest => Halts noAs operator.precedence rest ∧ Stops noAs rhs rest
  | .assignment _ _ value, rest => Halts noAs .assignment rest ∧ Stops noAs value rest
  | .conditional _ _ _ _ otherwise, rest => Halts noAs .assignment rest ∧ Stops noAs otherwise rest
  | _, rest => Clear rest

variable {noAs : Bool} {rest : List Token}

theorem Ends.clear (h : Ends noAs rest) : Clear rest := by
  cases rest with
  | nil => trivial
  | cons => exact ⟨h.1,h.2.1⟩

theorem Ends.halts (h : Ends noAs rest) (min : Precedence) : Halts noAs min rest := by
  cases rest with
  | nil => trivial
  | cons =>
    obtain ⟨hp,-,hend⟩ := h
    refine ⟨hp,hend.imp_right fun hlowest => .inl ?_⟩
    rw [operatorPrecedence,if_neg,hlowest]
    rintro ⟨hquestion,-⟩
    rw [hquestion] at hlowest
    cases hlowest

theorem Ends.stops (h : Ends noAs rest) (e : Expression X T) : Stops noAs e rest := by
  induction e with
  | unaryPrefix _ _ ih => exact ⟨h.halts _,ih⟩
  | binary _ _ _ _ _ ih => exact ⟨h.halts _,ih⟩
  | assignment _ _ _ ih => exact ⟨h.halts _,ih⟩
  | conditional _ _ _ _ _ _ _ ih => exact ⟨h.halts _,ih⟩
  | _ => exact h.clear

/-- An operator does not attach at the level of a tree that is allowed to its left. -/
theorem halts_of_attaches {min : Precedence} (hclear : Clear rest)
    (hattaches : attaches (operatorPrecedence rest) min = false) : Halts noAs min rest := by
  cases rest with
  | nil => trivial
  | cons => exact ⟨hclear.1,.inr (.inr hattaches)⟩

theorem attaches_eq_false {op min : Precedence} (h : op.rank < min.rank ∨ min = op ∧ op.associativity = some .left) :
    attaches op min = false := by
  unfold attaches
  rcases h with hlt | ⟨rfl,hassoc⟩
  · split <;> simp <;> omega
  · rw [hassoc]
    simp

/-- No operator inside a tree takes the operator that the tree is allowed to the left of. -/
theorem stops_of_allowedLeft {others : Others X T} {e : Expression X T} {p : Precedence}
    (hp : operatorPrecedence rest = p) (htable : FollowsTable others e)
    (hl : e.AllowedLeft p) (hrank : 2 ≤ p.rank) (hclear : Clear rest) : Stops noAs e rest := by
  subst hp
  induction e with
  | unaryPrefix _ _ ih =>
    obtain ⟨-,hoperand,htable⟩ := htable
    refine ⟨halts_of_attaches hclear (attaches_eq_false hl),ih htable (.inl ?_)⟩
    rcases hl with hlt | ⟨heq,hassoc⟩
    · exact lt_of_lt_of_le hlt hoperand
    · rw [← heq] at hassoc
      cases hassoc
  | binary _ _ _ _ _ ih =>
    obtain ⟨-,-,hr,-,htable⟩ := htable
    refine ⟨halts_of_attaches hclear (attaches_eq_false hl),ih htable (.inl ?_)⟩
    rcases hl with hlt | ⟨heq,hassoc⟩ <;> rcases hr with hlt' | ⟨heq',hassoc'⟩
    · exact lt_trans hlt hlt'
    · rw [heq']
      exact hlt
    · rw [← heq]
      exact hlt'
    · rw [← heq] at hassoc
      cases hassoc.symm.trans hassoc'
  | assignment =>
    rcases hl with hlt | ⟨heq,-⟩
    · change _ < 1 at hlt
      omega
    · rw [← heq] at hrank
      exact absurd hrank (show ¬2 ≤ Precedence.assignment.rank by decide)
  | conditional =>
    rcases hl with hlt | ⟨heq,hassoc⟩
    · change _ < 2 at hlt
      omega
    · rw [← heq] at hassoc
      cases hassoc
  | typeOperation => cases htable
  | other => cases htable
  | _ => exact hclear

end

section

variable {kind : TokenKind} {op : BinaryOperator}

theorem binaryOperator_spec (h : binaryOperator kind = some op) :
    kind.infixLevel = op.precedence ∧ 2 ≤ op.precedence.rank ∧ kind.isPostfix = false ∧
      (kind ≠ bang ∧ kind ≠ as_ ∧ kind ≠ is ∧ kind ≠ question) ∧ kind.isAssignment = false := by
  unfold binaryOperator at h
  split at h <;> cases h <;> decide

theorem isAssignment_spec (h : kind.isAssignment) : kind.infixLevel = .assignment ∧ kind.isPostfix = false ∧
    kind ≠ bang ∧ kind ≠ as_ ∧ kind ≠ is ∧ kind ≠ question := by
  revert h
  cases kind <;> decide

theorem isName_spec {next : Option TokenKind} (h : isName kind) (hbracket : next ≠ some leftBracket) :
    kind.isUnaryPrefix = false ∧ isLiteral kind = false ∧ kind ∉ [TokenKind.variable_,leftParenthesis,fresh] ∧
      isOtherPrimary kind next = false := by
  revert h
  cases kind <;> simp [isName,isConstantName,isUnaryPrefix,prefixLevel,isLiteral,isOtherPrimary,hbracket]

theorem isLiteral_spec (h : isLiteral kind) : kind.isUnaryPrefix = false ∧ kind ∉ [identifier,fresh] := by
  revert h
  cases kind <;> decide

end

section

variable {others : Others X T} {depth fuel : ℕ}
  {parse : Bool → Precedence → List Token → Parse (Expression X T × List Token)} {noAs : Bool} {min : Precedence}
  {left : Expression X T} {token : Token} {rest : List Token}

theorem infixLoop_halts (h : Halts noAs min rest) (fuel : ℕ) (left : Expression X T) :
    infixLoop others depth parse (fuel+1) noAs min left rest = .ok (left,rest) := by
  cases rest with
  | nil => rfl
  | cons token =>
    obtain ⟨hp,hstop⟩ := h
    rw [infixLoop,if_neg (by simp [hp])]
    by_cases has : token.kind = as_ ∧ noAs = true
    · rw [if_pos has]
    · rw [if_neg has,if_pos (hstop.resolve_left has)]

/-- The loop takes an operator. -/
theorem infixLoop_attaches {p : Precedence} (hp : operatorPrecedence (token::rest) = p)
    (hpost : token.kind.isPostfix = false) (has : ¬(token.kind = as_ ∧ noAs)) (hrank : 0 < p.rank)
    (hattaches : attaches p min)
    (htop : p.isNonAssociative → topPrecedence left ≠ p) :
    infixLoop others depth parse (fuel+1) noAs min left (token::rest) =
      (parseInfix others depth parse noAs left token p rest >>= fun res =>
        infixLoop others depth parse fuel noAs min res.1 res.2) := by
  have hlowest : p ≠ .lowest := by
    rintro rfl
    exact absurd hrank (by decide)
  rw [infixLoop,if_neg (by simp [hpost]),if_neg has]
  rw [hp,if_neg (by simp [hlowest,hattaches]),if_neg fun h => htop h.1 h.2]

theorem parseInfix_operator (h : token.kind ∉ [as_,is,question]) (p : Precedence) :
    parseInfix others depth parse noAs left token p rest = parseOperator others parse noAs left token p rest := by
  unfold parseInfix
  split <;> simp_all

variable {ts : List Token}

/-- A call parses the first operand and goes on with the loop. -/
theorem inner_of_first (h : parsePrefix others depth parse noAs ts = .ok (left,rest)) :
    parseExpressionBpInner others depth parse noAs min ts =
      infixLoop others depth parse (rest.length+1) noAs min left rest := by
  rw [parseExpressionBpInner,h]
  rfl

theorem inner_of_first_error {er : ParseError} (h : parsePrefix others depth parse noAs ts = .error er) :
    parseExpressionBpInner others depth parse noAs min ts = .error er := by
  rw [parseExpressionBpInner,h]
  rfl

theorem kindAt_ne_of_clear (h : Clear rest) : kindAt rest 0 ≠ some bang ∧ kindAt rest 0 ≠ some leftBracket := by
  cases rest with
  | nil => exact ⟨nofun,nofun⟩
  | cons token =>
    refine ⟨fun heq => h.2 (some_inj.mp heq),fun heq => ?_⟩
    have hk : token.kind = leftBracket := some_inj.mp heq
    have hp := h.1
    rw [hk] at hp
    cases hp

theorem prefix_literal (hk : isLiteral token.kind) (hok : others.literalOf token = .ok ()) :
    parsePrefix others depth parse noAs (token::rest) = .ok (.literal token,rest) := by
  obtain ⟨hpre,hn⟩ := isLiteral_spec hk
  simp only [mem_cons,not_mem_nil,or_false] at hn
  rw [parsePrefix,if_neg (by simp [hpre]),parsePrimary,if_neg fun h => hn h.1]
  unfold isLiteral at hk
  split at hk
  all_goals first | (next heq => simp only [heq,hok]; rfl) | cases hk

theorem prefix_variable (hk : token.kind = TokenKind.variable_) :
    parsePrefix others depth parse noAs (token::rest) = .ok (.variable_ token,rest) := by
  rw [parsePrefix,if_neg (by rw [hk]; decide),parsePrimary,if_neg (by rw [hk]; simp)]
  simp only [hk]

theorem prefix_parenthesis (hk : token.kind = leftParenthesis) :
    parsePrefix others depth parse noAs (token::rest) = parseParenthesizedOrTuple others depth parse token rest := by
  rw [parsePrefix,if_neg (by rw [hk]; decide),parsePrimary,if_neg (by rw [hk]; simp)]
  simp only [hk]

theorem prefix_constant (hk : isName token.kind) (hclear : Clear rest) :
    parsePrefix others depth parse noAs (token::rest) = .ok (.constant token,rest) := by
  obtain ⟨hbang,hbracket⟩ := kindAt_ne_of_clear hclear
  obtain ⟨hpre,hliteral,hothers,hprimary⟩ := isName_spec hk hbracket
  rw [parsePrefix,if_neg (by simp [hpre]),parsePrimary,if_neg fun h => hbang h.2.1]
  split
  all_goals first
    | rfl
    | (next heq => rw [heq] at hliteral; cases hliteral)
    | (next heq => rw [heq] at hothers; exact absurd hothers (by decide))
    | skip
  next hqualified hfully =>
    have hconstant : token.kind.isConstantName = true := by
      unfold isName at hk
      split at hk
      · exact absurd ‹_› hqualified
      · exact absurd ‹_› hfully
      · exact hk
    rw [if_neg (by simp [hprimary]),if_pos hconstant]

end

section

variable {others : Others X T} {e : Expression X T} {noAs : Bool} {min : Precedence} {rest : List Token}

/-- The tokens of a tree lead a call to the loop with the tree as its left operand, if there are enough nested calls. -/
def Leads (others : Others X T) (e : Expression X T) (remaining : ℕ) (noAs : Bool) (min : Precedence)
    (rest : List Token) : Prop :=
  (e.nesting ≤ remaining → ∃ fuel, rest.length < fuel ∧
    parseExpressionBpInner others remaining (parseExpressionBp others remaining) noAs min (e.tokens++rest) =
      infixLoop others remaining (parseExpressionBp others remaining) fuel noAs min e rest) ∧
  (remaining < e.nesting → ∃ found,
    parseExpressionBpInner others remaining (parseExpressionBp others remaining) noAs min (e.tokens++rest) =
      .error (.recursionLimitExceeded found))

/-- They do so in every call at whose level they attach. -/
def Parses (others : Others X T) (e : Expression X T) : Prop :=
  ∀ remaining noAs min rest, attaches e.level min = true → Stops noAs e rest →
    Leads others e remaining noAs min rest

/-- The result is found with `depth` nested calls. With fewer, the recursion limit stops the search. -/
def Within {A : Type} (depth remaining : ℕ) (found : Parse A) (result : A) : Prop :=
  (depth ≤ remaining → found = .ok result) ∧
    (remaining < depth → ∃ token, found = .error (.recursionLimitExceeded token))

section
variable {A B : Type} {found : Parse A} {next : A → Parse B} {res : A} {r' : B}

theorem Within.bind {depth n' remaining : ℕ} (h : Within depth remaining found res)
    (hnext : Within n' remaining (next res) r') :
    Within (max depth n') remaining (found >>= next) r' := by
  refine ⟨fun hle => ?_,fun hlt => ?_⟩
  · rw [h.1 (le_trans (le_max_left ..) hle)]
    exact hnext.1 (le_trans (le_max_right ..) hle)
  rcases Nat.lt_or_ge remaining depth with hlt' | hge
  · obtain ⟨token,hfound⟩ := h.2 hlt'
    exact ⟨token,by rw [hfound]; rfl⟩
  · rw [h.1 hge]
    exact hnext.2 ((lt_max_iff.mp hlt).resolve_left (Nat.not_lt.mpr hge))

theorem Within.map {depth remaining : ℕ} (h : Within depth remaining found res) (hnext : next res = .ok r') :
    Within depth remaining (found >>= next) r' := by
  have hz : Within 0 remaining (next res) r' := ⟨fun _ => hnext,fun hlt => absurd hlt (Nat.not_lt_zero _)⟩
  simpa only [Nat.max_zero] using h.bind hz

end

/-- A call returns the tree, unless it needs more nested calls than are left. -/
theorem Parses.call (h : Parses others e) (hmin : attaches e.level min) (hstops : Stops noAs e rest)
    (hhalts : Halts noAs min rest) (depth : ℕ) :
    Within (e.nesting+1) depth (parseExpressionBp others depth noAs min (e.tokens++rest)) (e,rest) := by
  cases depth with
  | zero => exact ⟨fun hlt => absurd hlt (Nat.not_lt_zero _),fun _ => ⟨_,rfl⟩⟩
  | succ depth =>
    obtain ⟨hparsed,hd⟩ := h depth noAs min rest hmin hstops
    refine ⟨fun hle => ?_,fun hlt => hd (Nat.lt_of_succ_lt_succ hlt)⟩
    obtain ⟨fuel,hf,heq⟩ := hparsed (Nat.le_of_succ_le_succ hle)
    obtain ⟨fuel,rfl⟩ : ∃ n, fuel = n+1 := ⟨fuel-1,by omega⟩
    exact heq.trans (infixLoop_halts hhalts fuel e)

/-- The first token of a tree. -/
theorem tokens_start (htable : FollowsTable others e) :
    ∃ token more, e.tokens = token::more ∧ token.kind ≠ as_ ∧ token.kind ≠ rightParenthesis := by
  induction e with
  | literal token =>
    refine ⟨token,[],rfl,?_,?_⟩ <;> intro heq <;> rw [FollowsTable,heq] at htable <;> cases htable.1
  | variable_ token | constant token =>
    refine ⟨token,[],rfl,?_,?_⟩ <;> intro heq <;> rw [FollowsTable,heq] at htable <;> cases htable
  | parenthesized left =>
    refine ⟨left,_,rfl,?_,?_⟩ <;> rw [htable.1] <;> decide
  | unaryPrefix op =>
    refine ⟨op,_,rfl,?_,?_⟩ <;> intro heq <;> have hk := htable.1 <;> rw [heq] at hk <;>
      simp at hk
  | binary _ _ token rhs ih =>
    obtain ⟨f,more,htokens,hk⟩ := ih htable.2.2.2.1
    exact ⟨f,more++token::rhs.tokens,by rw [Expression.tokens,htokens]; rfl,hk⟩
  | assignment t =>
    cases t with
    | variable_ token => refine ⟨token,_,rfl,?_,?_⟩ <;> rw [htable.1] <;> decide
    | other => cases htable
  | conditional _ _ _ _ _ ih =>
    obtain ⟨f,more,htokens,hk⟩ := ih htable.2.2.2.2.1
    exact ⟨f,_,by rw [Expression.tokens,htokens]; rfl,hk⟩
  | typeOperation => cases htable
  | other => cases htable

variable {op : Precedence}

/-- A tree to the right of an operator may be parsed with the operator's level as the minimum. -/
theorem attaches_of_allowedRight (h : e.AllowedRight op) : attaches e.level op := by
  unfold attaches
  rcases h with hlt | ⟨heq,hassoc⟩
  · split <;> simp <;> omega
  · rw [heq,hassoc]
    simp

theorem attaches_of_lt (h : min.rank < e.level.rank) : attaches e.level min := attaches_of_allowedRight (.inl h)

/-- A tree to the left of an operator that attaches may itself be parsed in the call. -/
theorem attaches_of_allowedLeft (h : e.AllowedLeft op)
    (hmin : attaches op min) : attaches e.level min := by
  unfold attaches at hmin
  rcases h with hlt | ⟨heq,hassoc⟩
  · refine attaches_of_lt ?_
    split at hmin <;> simp at hmin <;> omega
  · rw [heq]
    exact hmin

theorem attaches_lowest (e : Expression X T) : attaches e.level .lowest := by
  refine attaches_of_lt ?_
  cases e with
  | binary _ op => cases op <;> exact Nat.succ_pos _
  | _ => exact Nat.succ_pos _

theorem topPrecedence_eq (e : Expression X T) : topPrecedence e = e.level ∨ topPrecedence e = .lowest := by
  cases e <;> first | exact .inl rfl | exact .inr rfl

/-- The operator after a tree that is allowed to its left does not make a chain with it. -/
theorem topPrecedence_ne (h : e.AllowedLeft op) (hassoc : op.isNonAssociative) : topPrecedence e ≠ op := by
  intro heq
  simp only [Precedence.isNonAssociative,beq_iff_eq] at hassoc
  rcases topPrecedence_eq e with htop | htop <;> rw [heq] at htop
  · rcases h with hlt | ⟨-,hl⟩
    · rw [htop] at hlt
      exact lt_irrefl _ hlt
    · cases hassoc.symm.trans hl
  · rw [htop] at hassoc
    cases hassoc

variable {op r separator token : Token}

theorem ends_rightParenthesis (h : r.kind = rightParenthesis) : Ends noAs (r::rest) := by
  rw [Ends,h]
  exact ⟨rfl,by decide,.inr rfl⟩

theorem ends_colon (h : separator.kind = colon) : Ends noAs (separator::rest) := by
  rw [Ends,h]
  exact ⟨rfl,by decide,.inr rfl⟩

/-- The tree is the first operand of the call. -/
theorem leads_of_first {depth : ℕ} (h : Within e.nesting depth
      (parsePrefix others depth (parseExpressionBp others depth) noAs (e.tokens++rest)) (e,rest)) :
    Leads others e depth noAs min rest := by
  refine ⟨fun hle => ⟨rest.length+1,Nat.lt_succ_self _,inner_of_first (h.1 hle)⟩,fun hlt => ?_⟩
  obtain ⟨found,hfound⟩ := h.2 hlt
  exact ⟨found,inner_of_first_error hfound⟩

theorem parses_atom (hnesting : e.nesting = 0) (h : ∀ depth noAs rest, Stops noAs e rest →
    parsePrefix others depth (parseExpressionBp others depth) noAs (e.tokens++rest) = .ok (e,rest)) : Parses others e :=
  fun depth noAs _ rest _ hstops =>
    leads_of_first ⟨fun _ => h depth noAs rest hstops,fun hlt => absurd hlt (by omega)⟩

theorem parses_parenthesized {left : Token} (hl : left.kind = leftParenthesis)
    (hr : r.kind = rightParenthesis) (htable : FollowsTable others e) (h : Parses others e) :
    Parses others (.parenthesized left e r) := by
  intro depth noAs min rest _ _
  obtain ⟨token,more,htokens,-,hk⟩ := tokens_start htable
  have hends : Ends false (r::rest) := ends_rightParenthesis hr
  have hinner := h.call (attaches_lowest e) (hends.stops e) (hends.halts _) depth
  have hsplit : (Expression.parenthesized left e r).tokens++rest = left::(e.tokens++r::rest) := by
    simp [Expression.tokens]
  have hstart : parsePrefix others depth (parseExpressionBp others depth) noAs
        (left::(e.tokens++r::rest)) =
      (parseExpressionBp others depth false .lowest (e.tokens++r::rest) >>= fun res =>
        finishParenthesizedOrTuple others depth left res.1 res.2) := by
    rw [prefix_parenthesis hl,htokens,cons_append,parseParenthesizedOrTuple,if_neg hk]
  refine leads_of_first ?_
  rw [hsplit,hstart]
  exact hinner.map (if_pos hr)

theorem parses_unaryPrefix (hk : op.kind ∈ [bang,tilde,plus,minus])
    (hlevel : Precedence.unary.rank ≤ e.level.rank) (h : Parses others e) : Parses others (.unaryPrefix op e) := by
  intro depth noAs min rest _ hstops
  have hpre : op.kind.isUnaryPrefix = true := by
    simp only [mem_cons,not_mem_nil,or_false] at hk
    rcases hk with hk | hk | hk | hk <;> rw [hk] <;> rfl
  have hmin : attaches e.level .unary = true := by
    rcases Nat.lt_or_eq_of_le hlevel with hlt | heq
    · exact attaches_of_lt hlt
    · rw [← Precedence.rank_injective heq]
      rfl
  refine leads_of_first ?_
  rw [Expression.tokens,cons_append,parsePrefix,if_pos hpre]
  exact (h.call hmin hstops.2 hstops.1 depth).map rfl

/-- One round of the loop takes an operator with its operands. -/
theorem leads_of_round {lhs : Expression X T} {a : List Token} {p : Precedence}
    {depth n : ℕ} (hlhs : Parses others lhs) (hl : lhs.AllowedLeft p)
    (hstops : Stops noAs lhs (token::a)) (hp : operatorPrecedence (token::a) = p)
    (hpost : token.kind.isPostfix = false) (has : token.kind ≠ as_) (hrank : 0 < p.rank)
    (hmin : attaches p min) (hsplit : e.tokens++rest = lhs.tokens++token::a)
    (hlen : rest.length ≤ a.length) (hnesting : e.nesting = max lhs.nesting n) (h : Within n depth
      (parseInfix others depth (parseExpressionBp others depth) noAs lhs token p a) (e,rest)) :
    Leads others e depth noAs min rest := by
  obtain ⟨hparsed,hd⟩ := hlhs depth noAs min (token::a) (attaches_of_allowedLeft hl hmin) hstops
  have hround : lhs.nesting ≤ depth → ∃ fuel, rest.length < fuel ∧
      parseExpressionBpInner others depth (parseExpressionBp others depth) noAs min (lhs.tokens++token::a) =
        (parseInfix others depth (parseExpressionBp others depth) noAs lhs token p a >>=
          fun res => infixLoop others depth (parseExpressionBp others depth) fuel noAs min res.1 res.2) := by
    intro hle
    obtain ⟨fuel,hf,heq⟩ := hparsed hle
    obtain ⟨fuel,rfl⟩ : ∃ n, fuel = n+1 := ⟨fuel-1,by omega⟩
    rw [length_cons] at hf
    refine ⟨fuel,by omega,heq.trans ?_⟩
    rw [infixLoop_attaches hp hpost (fun h => has h.1) hrank hmin (topPrecedence_ne hl)]
  rw [Leads,hsplit,hnesting]
  refine ⟨fun hle => ?_,fun hlt => ?_⟩
  · obtain ⟨fuel,hf,heq⟩ := hround (le_trans (le_max_left ..) hle)
    refine ⟨fuel,hf,?_⟩
    rw [heq,h.1 (le_trans (le_max_right ..) hle)]
    rfl
  · rcases Nat.lt_or_ge depth lhs.nesting with hlhs | hlhs
    · exact hd hlhs
    obtain ⟨found,hfound⟩ := h.2 ((lt_max_iff.mp hlt).resolve_left (Nat.not_lt.mpr hlhs))
    obtain ⟨fuel,-,heq⟩ := hround hlhs
    exact ⟨found,by rw [heq,hfound]; rfl⟩

theorem parses_binary {lhs rhs : Expression X T} {op : BinaryOperator}
    (hk : binaryOperator token.kind = some op) (hl : lhs.AllowedLeft op.precedence)
    (hr : rhs.AllowedRight op.precedence) (htable : FollowsTable others lhs) (hlhs : Parses others lhs)
    (hrhs : Parses others rhs) : Parses others (.binary lhs op token rhs) := by
  intro depth noAs min rest hmin hstops
  obtain ⟨hlevel,hrank,hp,hkinds,hassignment⟩ := binaryOperator_spec hk
  have hprec : operatorPrecedence (token::(rhs.tokens++rest)) = op.precedence := by
    rw [operatorPrecedence,if_neg fun h => hkinds.2.2.2 h.1,hlevel]
  refine leads_of_round hlhs hl (stops_of_allowedLeft hprec htable hl hrank ⟨hp,hkinds.1⟩) hprec hp
    hkinds.2.1 (by omega) hmin (by simp [Expression.tokens]) (by simp) rfl ?_
  rw [parseInfix_operator (by simp [hkinds]),parseOperator,if_neg (by simp [hassignment]),hk]
  exact (hrhs.call (attaches_of_allowedRight hr) hstops.2 hstops.1 depth).map rfl

theorem parses_assignment {v : Expression X T} (htoken : token.kind = TokenKind.variable_)
    (hk : op.kind.isAssignment) (hr : v.AllowedRight .assignment)
    (hv : Parses others v) : Parses others (.assignment (.variable_ token) op v) := by
  intro depth noAs min rest hmin hstops
  obtain ⟨hlevel,hp,hkinds⟩ := isAssignment_spec hk
  have hprec : operatorPrecedence (op::(v.tokens++rest)) = .assignment := by
    rw [operatorPrecedence,if_neg fun h => hkinds.2.2.2 h.1,hlevel]
  have htarget : Parses others (.variable_ token) := parses_atom rfl fun _ _ _ _ => prefix_variable htoken
  have hl : (Expression.variable_ token : Expression X T).AllowedLeft .assignment :=
    .inl (show Precedence.assignment.rank < Precedence.highest.rank by decide)
  refine leads_of_round htarget hl ⟨hp,hkinds.1⟩ hprec hp hkinds.2.1 (by decide) hmin
    (by simp [Expression.tokens]) (by simp) (Nat.zero_max _).symm ?_
  rw [parseInfix_operator (by simp [hkinds]),parseOperator,if_pos hk]
  exact (hv.call (attaches_of_allowedRight hr) hstops.2 hstops.1 depth).map rfl

theorem parses_conditional {c then_ z : Expression X T} {mark : Token}
    (hm : mark.kind = question) (hseparator : separator.kind = colon) (hl : c.AllowedLeft .conditional)
    (hr : z.AllowedRight .conditional) (htable : FollowsTable others c)
    (hthenTable : FollowsTable others then_) (hcondition : Parses others c) (hthen : Parses others then_)
    (hotherwise : Parses others z) :
    Parses others (.conditional c mark then_ separator z) := by
  intro depth noAs min rest hmin hstops
  obtain ⟨f,more,hfirst,has,-⟩ := tokens_start hthenTable
  let after := then_.tokens++separator::(z.tokens++rest)
  have hp : operatorPrecedence (mark::after) = .conditional := by
    rw [operatorPrecedence,if_neg,hm]
    · rfl
    rintro ⟨-,hnext⟩
    simp only [after,hfirst] at hnext
    exact has (some_inj.mp hnext)
  have hclear : Clear (mark::after) := by
    rw [Clear,hm]
    exact ⟨rfl,by decide⟩
  have hends : Ends noAs (separator::(z.tokens++rest)) := ends_colon hseparator
  have hthenCall := hthen.call (attaches_lowest then_) (hends.stops then_) (hends.halts _) depth
  have hotherwiseMin : attaches z.level .assignment = true := by
    refine attaches_of_lt ?_
    rcases hr with hlt | ⟨heq,-⟩
    · exact lt_trans (by decide) hlt
    · rw [heq]
      decide
  refine leads_of_round hcondition hl (stops_of_allowedLeft hp htable hl (by decide) hclear) hp
    hclear.1 (by rw [hm]; decide) (by decide) hmin (by simp [Expression.tokens,after]) (by simp [after]; omega)
    (congrArg (max _) (Nat.add_max_add_right ..).symm) ?_
  have hexpect : expect colon (separator::(z.tokens++rest)) = .ok (separator,z.tokens++rest) :=
    if_pos hseparator
  simp only [parseInfix,hm]
  refine hthenCall.bind ?_
  simp only [hexpect]
  exact (hotherwise.call hotherwiseMin hstops.2 hstops.1 depth).map rfl

/-- Every tree that follows the table is parsed from its tokens. -/
theorem parses_of_followsTable (h : FollowsTable others e) : Parses others e := by
  induction e with
  | literal =>
    exact parses_atom rfl fun depth noAs rest _ => prefix_literal h.1 h.2
  | variable_ => exact parses_atom rfl fun depth noAs rest _ => prefix_variable h
  | constant => exact parses_atom rfl fun depth noAs rest hclear => prefix_constant h hclear
  | parenthesized _ _ _ ih => exact parses_parenthesized h.1 h.2.1 h.2.2 (ih h.2.2)
  | unaryPrefix _ _ ih => exact parses_unaryPrefix h.1 h.2.1 (ih h.2.2)
  | binary _ _ _ _ ihLhs ihRhs =>
    obtain ⟨hk,hl,hr,hlhs,hrhs⟩ := h
    exact parses_binary hk hl hr hlhs (ihLhs hlhs) (ihRhs hrhs)
  | assignment t _ _ ih =>
    cases t with
    | variable_ => exact parses_assignment h.1 h.2.1 h.2.2.1 (ih h.2.2.2)
    | other => cases h
  | conditional _ _ _ _ _ ihCondition ihThen ihOtherwise =>
    obtain ⟨hm,hseparator,hl,hr,hcondition,hthen,hotherwise⟩ := h
    exact parses_conditional hm hseparator hl hr hcondition hthen (ihCondition hcondition) (ihThen hthen)
      (ihOtherwise hotherwise)
  | typeOperation => cases h
  | other => cases h

end

section

variable {others : Others X T} {lhs : Expression X T} {noAs : Bool} {min : Precedence} {rest : List Token}

variable {parse : Bool → Precedence → List Token → Parse (Expression X T × List Token)} {depth fuel : ℕ}

/-- The loop rejects an operator of a level that does not associate after an operand with that level at its root. -/
theorem infixLoop_chained {left : Expression X T}
    {token : Token} {p : Precedence} (hp : operatorPrecedence (token::rest) = p)
    (hpost : token.kind.isPostfix = false) (has : ¬(token.kind = as_ ∧ noAs))
    (hassoc : p.isNonAssociative) (hattaches : attaches p min)
    (htop : topPrecedence left = p) : infixLoop others depth parse (fuel+1) noAs min left (token::rest) =
      .error (.unexpectedToken (.description (chainedText p)) token) := by
  have hlowest : p ≠ .lowest := by
    rintro rfl
    cases hassoc
  rw [infixLoop,if_neg (by simp [hpost]),if_neg has]
  rw [hp,if_neg (by simp [hlowest,hattaches]),if_pos ⟨hassoc,htop⟩]

/-- Two binary operators of one level that does not associate. -/
theorem chained_operators {op operator' : BinaryOperator} {token t' : Token} {rhs : Expression X T}
    (hk : binaryOperator token.kind = some op) (hk' : binaryOperator t'.kind = some operator')
    (hassoc : op.precedence.isNonAssociative) (hlevel : operator'.precedence = op.precedence)
    (hlhs : FollowsTable others lhs) (hrhs : FollowsTable others rhs) (hl : lhs.AllowedLeft op.precedence)
    (hr : rhs.AllowedRight op.precedence) (hmin : attaches op.precedence min) (depth : ℕ) :
    parseExpressionBp others depth noAs min (lhs.tokens++token::(rhs.tokens++t'::rest)) =
        .error (.unexpectedToken (.description (chainedText op.precedence)) t') ∨
      ∃ found, parseExpressionBp others depth noAs min (lhs.tokens++token::(rhs.tokens++t'::rest)) =
        .error (.recursionLimitExceeded found) := by
  obtain ⟨hfound,hrank,hpost,hkinds,-⟩ := binaryOperator_spec hk'
  have hp : operatorPrecedence (t'::rest) = op.precedence := by
    rw [operatorPrecedence,if_neg fun h => hkinds.2.2.2 h.1,hfound,hlevel]
  have hclear : Clear (t'::rest) := ⟨hpost,hkinds.1⟩
  have hassoc' : op.precedence.associativity = some .nonAssociative := by
    simpa only [Precedence.isNonAssociative,beq_iff_eq] using hassoc
  have hself : attaches op.precedence op.precedence = false := by
    simp [attaches,hassoc']
  have hstops : Stops noAs (.binary lhs op token rhs) (t'::rest) := by
    refine ⟨halts_of_attaches hclear (by rw [hp]; exact hself),?_⟩
    refine stops_of_allowedLeft hp hrhs ?_ (by rw [← hlevel]; exact hrank) hclear
    exact hr.imp_right fun h => absurd (hassoc'.symm.trans h.2) (by decide)
  have hsplit : lhs.tokens++token::(rhs.tokens++t'::rest) =
      (Expression.binary lhs op token rhs).tokens++t'::rest := by
    simp [Expression.tokens]
  cases depth with
  | zero => exact .inr ⟨_,rfl⟩
  | succ depth =>
    rw [hsplit]
    obtain ⟨hparsed,hd⟩ := parses_binary hk hl hr hlhs (parses_of_followsTable hlhs)
      (parses_of_followsTable hrhs) depth noAs min (t'::rest) hmin hstops
    by_cases hle : (Expression.binary lhs op token rhs).nesting ≤ depth
    · obtain ⟨fuel,hf,heq⟩ := hparsed hle
      obtain ⟨fuel,rfl⟩ : ∃ n, fuel = n+1 := ⟨fuel-1,by omega⟩
      exact .inl (heq.trans (infixLoop_chained hp hpost (fun h => hkinds.2.1 h.1) hassoc hmin rfl))
    · exact .inr (hd (by omega))

/-- The operators `is`, `as` where it is one, and `?as`. -/
inductive IsTypeOperator (noAs : Bool) : List Token → Prop
  | check {token : Token} (h : token.kind = is) : IsTypeOperator noAs [token]
  | assert {token : Token} (h : token.kind = as_) (hnoAs : noAs = false) : IsTypeOperator noAs [token]
  | assertOrNull {mark keyword : Token} (hmark : mark.kind = question) (hkeyword : keyword.kind = as_) :
      IsTypeOperator noAs [mark,keyword]

variable {a op : List Token}

theorem IsTypeOperator.spec (h : IsTypeOperator noAs op) (rest : List Token) :
    ∃ token more, op++rest = token::more ∧ operatorPrecedence (token::more) = .typeOperation ∧
      token.kind.isPostfix = false ∧ token.kind ≠ bang ∧ ¬(token.kind = as_ ∧ noAs) := by
  cases h with
  | check h => refine ⟨_,_,rfl,?_,?_,?_,?_⟩ <;> simp [operatorPrecedence,h,infixLevel,isPostfix,postfixLevel]
  | assert h hnoAs =>
    refine ⟨_,_,rfl,?_,?_,?_,?_⟩ <;> simp [operatorPrecedence,h,infixLevel,isPostfix,postfixLevel,hnoAs]
  | assertOrNull hm hkeyword =>
    refine ⟨_,_,rfl,?_,?_,?_,?_⟩ <;> simp [operatorPrecedence,kindAt,hm,hkeyword,isPostfix,postfixLevel]

/-- A type operator takes a type. -/
theorem IsTypeOperator.takes (h : IsTypeOperator noAs op) {type : T}
    (htype : others.parseType depth a = .ok (type,rest))
    (hl : lhs.AllowedLeft .typeOperation) (hmin : attaches .typeOperation min) :
    infixLoop others depth parse (fuel+1) noAs min lhs (op++a) =
      infixLoop others depth parse fuel noAs min (.typeOperation lhs op type) rest := by
  obtain ⟨token,more,htokens,hp,hpost,-,has⟩ := h.spec a
  have hround : infixLoop others depth parse (fuel+1) noAs min lhs (op++a) =
      (parseInfix others depth parse noAs lhs token .typeOperation more >>= fun res =>
        infixLoop others depth parse fuel noAs min res.1 res.2) := by
    rw [htokens,infixLoop_attaches hp hpost has (by decide) hmin (topPrecedence_ne hl)]
  rw [hround]
  cases h with
  | check h =>
    obtain ⟨rfl,rfl⟩ := List.cons.inj (htokens.symm.trans singleton_append)
    simp only [parseInfix,h,htype,bind,Except.bind]
  | assert h =>
    obtain ⟨rfl,rfl⟩ := List.cons.inj (htokens.symm.trans singleton_append)
    simp only [parseInfix,h,htype,bind,Except.bind]
  | assertOrNull hm hkeyword =>
    obtain ⟨rfl,rfl⟩ := List.cons.inj (htokens.symm.trans cons_append)
    simp only [parseInfix,hm,singleton_append,expect,hkeyword,if_true,htype,bind,Except.bind]

/-- Two type operators. -/
theorem chained_typeOperators {operator' : List Token} {type : T}
    (hop : IsTypeOperator noAs op) (hop' : IsTypeOperator noAs operator')
    (hlhs : FollowsTable others lhs) (hl : lhs.AllowedLeft .typeOperation) (hmin : attaches .typeOperation min)
    (htype : others.parseType depth a = .ok (type,operator'++rest)) :
    (∃ token ∈ operator', parseExpressionBp others (depth+1) noAs min (lhs.tokens++(op++a)) =
        .error (.unexpectedToken (.description (chainedText .typeOperation)) token)) ∨
      ∃ found, parseExpressionBp others (depth+1) noAs min (lhs.tokens++(op++a)) =
        .error (.recursionLimitExceeded found) := by
  obtain ⟨token,more,htokens,hp,hpost,hbang,has⟩ := hop.spec a
  obtain ⟨t',more',htokens',hprecedence',hp',-,has'⟩ := hop'.spec rest
  have hstops : Stops noAs lhs (op++a) := by
    rw [htokens]
    exact stops_of_allowedLeft hp hlhs hl (by decide) ⟨hpost,hbang⟩
  obtain ⟨hparsed,hd⟩ := parses_of_followsTable hlhs depth noAs min (op++a)
    (attaches_of_allowedLeft hl hmin) hstops
  by_cases hle : lhs.nesting ≤ depth
  · obtain ⟨fuel,hf,heq⟩ := hparsed hle
    obtain ⟨fuel,rfl⟩ : ∃ n, fuel = n+2 := by
      rw [htokens,length_cons] at hf
      exact ⟨fuel-2,by omega⟩
    have hmem : t' ∈ operator' := by
      cases hop' <;> cases htokens' <;> exact mem_cons_self
    refine .inl ⟨t',hmem,heq.trans ?_⟩
    rw [hop.takes htype hl hmin,htokens']
    exact infixLoop_chained hprecedence' hp' has' rfl hmin rfl
  · exact .inr (hd (by omega))

end

/-- Parsing follows the precedence table. A tree in which every child that the table does not allow is parenthesized is
parsed from its tokens, if it needs no more nested calls than the recursion limit leaves, and two operators of a level
that does not associate are rejected. -/
theorem parses_by_table (others : Others X T) :
    (∀ (e : Expression X T) (noAs : Bool) (min : Precedence) (rest : List Token) (remaining : ℕ),
      FollowsTable others e → attaches e.level min = true → Ends noAs rest → e.nesting < remaining →
      parseExpressionBp others remaining noAs min (e.tokens++rest) = .ok (e,rest)) ∧
    (∀ (lhs rhs : Expression X T) (operator operator' : BinaryOperator) (token token' : Token) (noAs : Bool)
      (min : Precedence) (rest : List Token) (remaining : ℕ),
      binaryOperator token.kind = some operator → binaryOperator token'.kind = some operator' →
      operator.precedence.isNonAssociative = true → operator'.precedence = operator.precedence →
      FollowsTable others lhs → FollowsTable others rhs → lhs.AllowedLeft operator.precedence →
      rhs.AllowedRight operator.precedence → attaches operator.precedence min = true →
      parseExpressionBp others remaining noAs min (lhs.tokens++token::(rhs.tokens++token'::rest)) =
          .error (.unexpectedToken (.description (chainedText operator.precedence)) token') ∨
        ∃ found, parseExpressionBp others remaining noAs min (lhs.tokens++token::(rhs.tokens++token'::rest)) =
          .error (.recursionLimitExceeded found)) ∧
    ∀ (lhs : Expression X T) (operator operator' after rest : List Token) (type : T) (noAs : Bool)
      (min : Precedence) (remaining : ℕ),
      IsTypeOperator noAs operator → IsTypeOperator noAs operator' → FollowsTable others lhs →
      lhs.AllowedLeft .typeOperation → attaches .typeOperation min = true →
      others.parseType remaining after = .ok (type,operator'++rest) →
      (∃ token ∈ operator', parseExpressionBp others (remaining+1) noAs min (lhs.tokens++(operator++after)) =
          .error (.unexpectedToken (.description (chainedText .typeOperation)) token)) ∨
        ∃ found, parseExpressionBp others (remaining+1) noAs min (lhs.tokens++(operator++after)) =
          .error (.recursionLimitExceeded found) := by
  refine ⟨?_,?_,?_⟩
  · intro e noAs min rest remaining htable hmin hends hnesting
    exact ((parses_of_followsTable htable).call hmin (hends.stops e) (hends.halts min) remaining).1 hnesting
  · intro lhs rhs operator operator' token token' noAs min rest remaining hkind hkind' hassoc hlevel hlhs hrhs hleft
      hright hmin
    exact chained_operators hkind hkind' hassoc hlevel hlhs hrhs hleft hright hmin remaining
  · intro lhs operator operator' after rest type noAs min remaining hoperator hoperator' hlhs hleft hmin htype
    exact chained_typeOperators hoperator hoperator' hlhs hleft hmin htype

section

/-- A grammar without the other expressions. -/
def plain : Others Empty Unit where
  literalOf _ := .ok ()
  primary _ _ _ := .error (.other 0)
  finishTuple _ _ _ _ := .error (.other 0)
  parsePostfix _ _ _ _ := .error (.other 0)
  parseType _ _ := .error (.other 0)
  target := nofun

def tokenOf (kind : TokenKind) : Token := ⟨kind,[],0⟩

def one : Expression Empty Unit := .literal (tokenOf literalInteger)

/-- `-1 ** 1 + 1` -/
def negatedPower : Expression Empty Unit :=
  .binary (.unaryPrefix (tokenOf minus) (.binary one .exponentiation (tokenOf asteriskAsterisk) one)) .addition
    (tokenOf plus) one

theorem parses_by_table_negatedPower : FollowsTable plain negatedPower ∧
    parseExpressionBp plain maxRecursionDepth false .lowest (negatedPower.tokens++[tokenOf semicolon]) =
      .ok (negatedPower,[tokenOf semicolon]) := by
  have htable : FollowsTable plain negatedPower := by
    simp [FollowsTable,negatedPower,one,tokenOf,plain,isLiteral,binaryOperator,Expression.AllowedLeft,
      Expression.AllowedRight,Expression.level,BinaryOperator.precedence,Precedence.rank]
  refine ⟨htable,(parses_by_table plain).1 negatedPower false .lowest _ _ htable rfl ?_ (by decide)⟩
  exact ⟨rfl,by decide,.inr rfl⟩

/-- A literal in parentheses. -/
def inParentheses : ℕ → Expression Empty Unit
  | 0 => one
  | depth+1 => .parenthesized (tokenOf leftParenthesis) (inParentheses depth) (tokenOf rightParenthesis)

theorem inParentheses_followsTable (depth : ℕ) : FollowsTable plain (inParentheses depth) := by
  induction depth with
  | zero => exact ⟨rfl,rfl⟩
  | succ _ ih => exact ⟨rfl,rfl,ih⟩

theorem inParentheses_nesting (depth : ℕ) : (inParentheses depth).nesting = depth := by
  induction depth with
  | zero => rfl
  | succ _ ih => rw [inParentheses,Expression.nesting,ih]

/-- A tree with as many parentheses as the recursion limit is not parsed. -/
theorem deep_parentheses_rejected : FollowsTable plain (inParentheses maxRecursionDepth) ∧
    ∃ found, parseExpressionBp plain maxRecursionDepth false .lowest
      ((inParentheses maxRecursionDepth).tokens++[tokenOf semicolon]) = .error (.recursionLimitExceeded found) := by
  have htable := inParentheses_followsTable maxRecursionDepth
  have hends : Ends false [tokenOf semicolon] := ⟨rfl,by decide,.inr rfl⟩
  refine ⟨htable,?_⟩
  refine ((parses_of_followsTable htable).call (attaches_lowest _) (hends.stops _)
    (hends.halts _) maxRecursionDepth).2 ?_
  rw [inParentheses_nesting]
  exact Nat.lt_succ_self _

end
end Whim.ExpressionParser
