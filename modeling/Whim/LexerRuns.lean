import Whim.LexerTokens

/-!
# Lexing loses nothing

The scan of a whole string and the walk of the lexer over its parts agree, so tokens cover the source, however deep
interpolations nest.
-/

namespace Whim.Lexer

open List Option Bool

/-! ### Parts of a string -/

variable {byte f : UInt8}

theorem stringEnd_identifier (h : isIdentifierPart byte ∨ byte = dollar) (rest : List UInt8) :
    stringEnd doubleQuote (byte::rest) = stringEnd doubleQuote rest := by
  have hne : ∀ b, isIdentifierPart b = false → b ≠ dollar → byte ≠ b := by
    rintro b hb hdollar rfl
    rcases h with h | h
    · rw [hb] at h
      cases h
    · exact hdollar h
  rw [stringEnd_cons,if_neg (hne _ (by decide) (by decide)),if_neg (hne _ (by decide) (by decide)),
    if_neg (hne _ (by decide) (by decide))]

theorem stringEnd_dropWhile (rest : List UInt8) :
    stringEnd doubleQuote (rest.dropWhile isIdentifierPart) = stringEnd doubleQuote rest := by
  induction rest with
  | nil => rfl
  | cons byte _ ih =>
    by_cases h : isIdentifierPart byte = true
    · rw [dropWhile_cons_of_pos h,ih,stringEnd_identifier (.inl h)]
    · rw [dropWhile_cons_of_neg h]

theorem identifierPart_of_start (h : isIdentifierStart byte) : isIdentifierPart byte := by
  simp only [isIdentifierStart,isIdentifierPart,or_eq_true] at h ⊢
  tauto

/-- An interpolated variable is text to the scan of the string. -/
theorem stringEnd_variable {rest : List UInt8} (h : startsWith isIdentifierStart rest) :
    stringEnd doubleQuote ((dollar::rest).drop (1+scanIdentifier (rest))) = stringEnd doubleQuote (dollar::rest) := by
  cases rest with
  | nil => cases h
  | cons =>
    rw [scanIdentifier,Nat.add_comm,drop_succ_cons,Nat.add_comm,drop_succ_cons,drop_length_takeWhile,
      stringEnd_dropWhile,stringEnd_identifier (.inr rfl),
      stringEnd_identifier (.inl (identifierPart_of_start h))]

/-- Where a part of a string ends that the scan closes with `after` left: at the closing quote, or at an interpolation
that closes before it. -/
inductive PartCloses (bytes after : List UInt8) : PartEnd → Prop
  | quote : PartCloses bytes after (.quote after)
  | variable_ {rest : List UInt8} (within : dollar::rest <:+ bytes) (starts : startsWith isIdentifierStart rest = true)
      (closes : stringEnd doubleQuote (dollar::rest) = some after) : PartCloses bytes after (.variable_ (dollar::rest))
  | interpolation {rest inner : List UInt8} (within : leftBrace::rest <:+ bytes)
      (ends : interpolationEnd 1 rest = some inner) (closes : stringEnd doubleQuote inner = some after) :
      PartCloses bytes after (.interpolation (leftBrace::rest) inner)

variable {bytes after : List UInt8}

theorem PartCloses.mono {longer : List UInt8} {part : PartEnd} (h : PartCloses bytes after part)
    (hsuffix : bytes <:+ longer) : PartCloses longer after part := by
  cases h with
  | quote => exact .quote
  | variable_ within starts closes => exact .variable_ (within.trans hsuffix) starts closes
  | interpolation within ends closes => exact .interpolation (within.trans hsuffix) ends closes

/-- The walk over the parts agrees with the scan of the whole string. -/
theorem scanPart_closes {fuel : ℕ} (hf : bytes.length < fuel)
    (h : stringEnd doubleQuote bytes = some after) : PartCloses bytes after (scanPart fuel bytes) := by
  induction fuel generalizing bytes with
  | zero => exact absurd hf (Nat.not_lt_zero _)
  | succ fuel ih =>
    cases bytes with
    | nil => cases h
    | cons byte rest =>
      have hlater : ∀ {l : List UInt8},l <:+ rest → stringEnd doubleQuote l = some after →
          PartCloses (byte::rest) after (scanPart fuel l) := fun hsuffix hend =>
        (ih (length_lt_of_suffix hsuffix hf) hend).mono (hsuffix.trans (suffix_cons byte rest))
      rw [stringEnd_cons] at h
      rw [scanPart]
      by_cases hbackslash : byte = backslash
      · rw [if_pos hbackslash] at h ⊢
        exact hlater (escape_suffix byte rest) h
      rw [if_neg hbackslash] at h ⊢
      by_cases hvariable : byte = dollar ∧ startsWith isIdentifierStart rest = true
      · rw [if_pos hvariable]
        obtain ⟨rfl,hstart⟩ := hvariable
        rw [if_neg (by decide),if_neg (by decide)] at h
        exact .variable_ (suffix_refl _) hstart ((stringEnd_identifier (.inr rfl) rest).trans h)
      rw [if_neg hvariable]
      by_cases hbrace : byte = leftBrace
      · subst hbrace
        rw [if_neg (by decide),if_pos rfl] at h
        obtain ⟨inner,hinner,hend⟩ := bind_eq_some_iff.mp h
        rw [if_pos rfl,hinner]
        exact .interpolation (suffix_refl _) hinner hend
      rw [if_neg hbrace] at h ⊢
      by_cases hquote : byte = doubleQuote
      · rw [if_pos hquote] at h ⊢
        obtain rfl := some.inj h
        exact .quote
      · rw [if_neg hquote] at h ⊢
        exact hlater (suffix_refl _) h

/-! ### Modes that the scans account for -/

/-- The bytes ahead, as the modes see them: every open string has its closing quote, every open interpolation its
closing brace at the recorded offset of the source, and the modes below are right about what follows. Where it is not
`strict`, a token may have gone over the closing brace. -/
inductive Aligned (strict : Prop) (source : List UInt8) : Mode → List Mode → List UInt8 → Prop
  | code (bytes : List UInt8) : Aligned strict source .code [] bytes
  | string {bytes after : List UInt8} {mode : Mode} {modes : List Mode}
      (closes : stringEnd doubleQuote bytes = some after) (outer : Aligned strict source mode modes after) :
      Aligned strict source (.string false) (mode::modes) bytes
  | variable_ {rest after : List UInt8} {mode : Mode} {modes : List Mode}
      (starts : startsWith isIdentifierStart rest = true)
      (closes : stringEnd doubleQuote (dollar::rest) = some after) (outer : Aligned strict source mode modes after) :
      Aligned strict source .variableInterpolation (mode::modes) (dollar::rest)
  | interpolationStart {rest inner after : List UInt8} {mode : Mode} {modes : List Mode} {closing : ℕ}
      (ends : interpolationEnd 1 rest = some inner) (recorded : inner = source.drop (closing+1))
      (closes : stringEnd doubleQuote inner = some after) (outer : Aligned strict source mode modes after) :
      Aligned strict source (.bracedInterpolationStart closing) (mode::modes) (leftBrace::rest)
  | interpolation {bytes inner after : List UInt8} {mode : Mode} {modes : List Mode} {closing : ℕ}
      (ends : strict → ∃ braces, interpolationEnd braces bytes = some inner)
      (recorded : inner = source.drop (closing+1))
      (closes : stringEnd doubleQuote inner = some after) (outer : Aligned strict source mode modes after) :
      Aligned strict source (.bracedInterpolation closing) (mode::modes) bytes

/-- A lexer that comes to an end from where it is, and goes on rightly where it is `strict`. -/
structure Sound (strict : Prop) (lexer : Lexer) : Prop where
  within : lexer.input.offset ≤ lexer.input.bytes.length
  whole : lexer.input.startingPosition = 0
  inside : lexer.mode ≠ .code → 0 < lexer.input.offset
  aligned : Aligned strict lexer.input.bytes lexer.mode lexer.modes lexer.input.readRemaining

def Mode.isString : Mode → Bool
  | .string _ => true
  | _ => false

/-- What decreases with every call: only a part of a string can be empty, and an interpolation follows it. -/
def rank (lexer : Lexer) : ℕ := 2*lexer.input.readRemaining.length+lexer.mode.isString.toNat

/-- The step returns the next bytes as a token at the position and leaves a lexer of the same kind. -/
def Follows (strict : Prop) (lexer : Lexer) (step : Step) : Prop :=
  ∃ token next, step = (.ok token,next) ∧ token.value++next.input.readRemaining = lexer.input.readRemaining ∧
    token.start = lexer.input.currentPosition ∧ next.input.offset = lexer.input.offset+token.value.length ∧
    next.input.bytes = lexer.input.bytes ∧ lexer.input.offset < lexer.input.bytes.length ∧ Sound strict next ∧
    next.rank < lexer.rank

theorem length_readRemaining (i : Input) : i.readRemaining.length = i.bytes.length-i.offset := length_drop

theorem readRemaining_skip (i : Input) (c : ℕ) : (i.skip c).readRemaining = i.readRemaining.drop c := by
  simp only [Input.readRemaining,Input.skip,drop_drop]
  rcases le_total (i.offset + c) i.bytes.length with h | h
  · rw [min_eq_left h]
  · rw [min_eq_right h,drop_length,drop_of_length_le h]

variable {lexer : Lexer}

theorem offset_lt (hne : lexer.input.readRemaining ≠ []) : lexer.input.offset < lexer.input.bytes.length := by
  have hpos := length_pos_iff.mpr hne
  rw [length_readRemaining] at hpos
  omega

theorem currentPosition_eq (hwhole : lexer.input.startingPosition = 0) (hlt : lexer.input.offset < 2 ^ 32) :
    lexer.input.currentPosition = lexer.input.offset := by
  rw [Input.currentPosition,hwhole,Nat.zero_add,Nat.mod_eq_of_lt hlt]
  exact min_eq_left (Nat.le_sub_one_of_lt hlt)

theorem currentPosition_lt (i : Input) : i.currentPosition < 2 ^ 32 :=
  Nat.lt_of_le_of_lt (min_le_right _ _) (by decide)

variable {strict : Prop}

variable {len o : ℕ} {kind : TokenKind} {ms : List Mode}

/-- A token that is not empty, or that leaves the text of a string, after which the modes are right. -/
theorem emit_follows {s : Lexer} (hin : s.input = lexer.input) (hsound : Sound strict lexer)
    (hne : lexer.input.readRemaining ≠ []) {mode : Mode}
    (hlen : 0 < len ∨ lexer.mode.isString ∧ mode.isString = false)
    (haligned : Aligned strict lexer.input.bytes mode ms (lexer.input.readRemaining.drop len)) :
    Follows strict lexer (s.emit kind len mode ms) := by
  have hlt := offset_lt hne
  have hremaining := length_readRemaining lexer.input
  have hoffset : (lexer.input.skip len).offset =
      lexer.input.offset+(lexer.input.readRemaining.take len).length := by
    simp only [Input.skip,length_take]
    omega
  refine ⟨_,_,rfl,?_,?_,?_,?_,hlt,?_,?_⟩
  · simp only [hin,readRemaining_skip,take_append_drop]
  · simp only [hin]
  · simp only [hin,hoffset]
  · simp only [hin,Input.skip]
  · refine ⟨?_,?_,fun hm => ?_,?_⟩
    · simp only [hin,Input.skip]
      exact min_le_right _ _
    · simp only [hin,Input.skip,hsound.whole]
    · simp only [hin,hoffset,length_take]
      rcases hlen with hlen | ⟨hstring,-⟩
      · omega
      · exact Nat.add_pos_left (hsound.inside fun h => by simp [h,Mode.isString] at hstring) _
    · rw [hin,readRemaining_skip]
      exact haligned
  · simp only [rank,hin,readRemaining_skip,length_drop]
    rcases hlen with hlen | ⟨hstring,ho⟩
    · have hbool := toNat_le mode.isString
      omega
    · rw [hstring,ho]
      simp only [toNat_true,toNat_false]
      omega

/-! ### Steps -/

/-- A part of a string, from its opening quote or from the end of an interpolation. -/
theorem advanceString_follows (hsound : Sound strict lexer) (hne : lexer.input.readRemaining ≠ [])
    (s : Lexer) (hin : s.input = lexer.input) {o : Bool} (hopening : o ∨ lexer.mode.isString)
    {mode : Mode} (hmodes : s.modes = mode::ms)
    (hcloses : stringEnd doubleQuote (lexer.input.readRemaining.drop o.toNat) = some after)
    (houter : Aligned strict lexer.input.bytes mode ms after) : Follows strict lexer (s.advanceString o) := by
  have hbody := drop_suffix o.toNat lexer.input.readRemaining
  have hpos := length_pos_iff.mpr hne
  -- the part is empty only if it does not open the string
  have hlen : ∀ stop : List UInt8,stop <:+ lexer.input.readRemaining.drop o.toNat →
      ∀ mode : Mode,mode.isString = false →
        0 < lexer.input.readRemaining.length-stop.length ∨ lexer.mode.isString = true ∧ mode.isString = false := by
    intro stop hstop mode hm
    rcases hopening with rfl | hstring
    · have hle := hstop.length_le
      rw [length_drop,toNat_true] at hle
      exact .inl (by omega)
    · exact .inr ⟨hstring,hm⟩
  unfold advanceString
  dsimp only
  rw [hin]
  have hf : (lexer.input.readRemaining.drop o.toNat).length < lexer.input.readRemaining.length+1 :=
    Nat.lt_succ_of_le hbody.length_le
  have hp := scanPart_closes hf hcloses
  generalize scanPart (lexer.input.readRemaining.length+1) (lexer.input.readRemaining.drop o.toNat) = part
    at hp ⊢
  cases hp with
  | quote =>
    have hbehind := (stringEnd_behind hcloses).mono hbody
    refine emit_follows hin hsound hne (.inl (Nat.sub_pos_of_lt hbehind.2)) ?_
    rw [hmodes,drop_to_suffix hbehind.1]
    exact houter
  | variable_ hstop hstarts hend =>
    refine emit_follows hin hsound hne (hlen _ hstop _ rfl) ?_
    rw [hmodes,drop_to_suffix (hstop.trans hbody)]
    exact .variable_ hstarts hend houter
  | @interpolation rest _ hstop hinner hend =>
    refine emit_follows hin hsound hne (hlen _ hstop _ rfl) ?_
    rw [hmodes,drop_to_suffix (hstop.trans hbody)]
    have hinside := ((interpolationEnd_behind hinner).mono (suffix_cons leftBrace rest)).mono
      (hstop.trans hbody)
    refine .interpolationStart hinner ?_ hend houter
    have hclosing (m : ℕ) (hm : 0 < m) : lexer.input.offset+m-1+1 = lexer.input.offset+m := by omega
    rw [hclosing _ (Nat.sub_pos_of_lt hinside.2),← drop_drop]
    exact (drop_to_suffix hinside.1).symm

/-- What a call does: it ends, in code with no mode left where the lexer is `strict`, fails or follows. -/
def Advances (strict : Prop) (lexer : Lexer) : Option Step → Prop
  | none => lexer.input.readRemaining = [] ∧ (strict → lexer.mode = .code ∧ lexer.modes = [])
  | some (.error _,_) => True
  | some step => Follows strict lexer step

theorem Follows.advances {step : Step} (h : Follows strict lexer step) : Advances strict lexer (some step) := by
  obtain ⟨t,next,rfl,hnext⟩ := h
  exact ⟨t,next,rfl,hnext⟩

/-- A call in code, for a mode that stays right wherever the scan of an interpolation passes. -/
theorem advanceCode_advances (hsound : Sound strict lexer)
    (hend : lexer.input.readRemaining = [] → strict → lexer.mode = .code ∧ lexer.modes = [])
    (hfirst : lexer.input.currentPosition = 0 →
      ∀ rest, Aligned strict lexer.input.bytes lexer.mode lexer.modes rest)
    (hpasses : ∀ rest, Passes lexer.input.readRemaining rest →
      Aligned strict lexer.input.bytes lexer.mode lexer.modes rest) : Advances strict lexer lexer.advanceCode := by
  unfold advanceCode
  cases hremaining : lexer.input.readRemaining with
  | nil => exact ⟨hremaining,hend hremaining⟩
  | cons f rest =>
    have hne : lexer.input.readRemaining ≠ [] := by simp [hremaining]
    dsimp only
    split_ifs with hshebang
    · refine (emit_follows rfl hsound hne (.inl ?_) (hfirst hshebang.1 _)).advances
      unfold throughNewline
      cases (f::rest).findIdx? (· == 0x0a) <;> simp
    · cases hscanned : scanToken lexer.input.currentPosition f rest with
      | token =>
        obtain ⟨hpos,hk⟩ := scanToken_kept hscanned
        rw [← hremaining] at hk
        exact (emit_follows rfl hsound hne (.inl hpos) (hpasses _ hk)).advances
      | interpolated =>
        obtain ⟨rfl,after,hafter⟩ := scanToken_interpolated hscanned
        refine (advanceString_follows hsound hne
          { lexer with mode := .string true, modes := lexer.mode::lexer.modes } rfl (.inl rfl) rfl ?_
            (hpasses after ?_)).advances
        · rw [hremaining]
          exact hafter
        · rw [hremaining]
          exact passes_string (.inr rfl) hafter
      | failed => trivial

/-- A call, at an offset that positions can tell where the lexer is `strict`. -/
theorem advance_advances (hsound : Sound strict lexer)
    (hposition : strict → lexer.input.readRemaining ≠ [] → lexer.input.offset < 2 ^ 32) :
    Advances strict lexer lexer.advance := by
  have haligned := hsound.aligned
  unfold advance
  generalize hremaining : lexer.input.readRemaining = remaining at haligned
  generalize hsource : lexer.input.bytes = source at haligned
  generalize hm : lexer.mode = mode at haligned ⊢
  generalize hmodes : lexer.modes = modes at haligned
  cases haligned with
  | code =>
    refine advanceCode_advances hsound (fun _ _ => ⟨hm,hmodes⟩) (fun _ rest => ?_) fun rest _ => ?_
    all_goals
      rw [hm,hmodes]
      exact .code rest
  | @string _ _ _ _ closes outer =>
    have hne : lexer.input.readRemaining ≠ [] := by
      rintro h
      rw [← hremaining,h] at closes
      cases closes
    refine (advanceString_follows hsound hne lexer rfl (.inr (by rw [hm]; rfl)) hmodes ?_
      (hsource ▸ outer)).advances
    rw [hremaining]
    exact closes
  | @variable_ _ _ _ _ starts closes outer =>
    have hne : lexer.input.readRemaining ≠ [] := by simp [hremaining]
    refine (emit_follows rfl hsound hne (.inl (by omega)) ?_).advances
    rw [hmodes,hremaining]
    exact .string ((stringEnd_variable starts).trans closes) (hsource ▸ outer)
  | interpolationStart ends recorded closes outer =>
    have hne : lexer.input.readRemaining ≠ [] := by simp [hremaining]
    refine (emit_follows rfl hsound hne (.inl Nat.one_pos) ?_).advances
    rw [hmodes,hremaining]
    exact .interpolation (fun _ => ⟨1,ends⟩) (hsource ▸ recorded) closes (hsource ▸ outer)
  | @interpolation _ inner _ _ _ closing ends recorded closes outer =>
    have hinner : 0 < inner.length := by
      cases inner with
      | nil => cases closes
      | cons => exact Nat.succ_pos _
    have hlength : inner.length = source.length-(closing+1) := by rw [recorded,length_drop]
    have hlen := length_readRemaining lexer.input
    rw [hremaining,hsource] at hlen
    dsimp only
    split_ifs with hclosing
    · have hne : lexer.input.readRemaining ≠ [] := by
        rw [hremaining]
        rintro rfl
        rw [length_nil] at hlen
        omega
      refine (emit_follows rfl hsound hne (.inl Nat.one_pos) ?_).advances
      have hd : lexer.input.readRemaining.drop 1 = inner := by
        rw [Input.readRemaining,drop_drop,hclosing,hsource,recorded]
      rw [hmodes,hd]
      exact .string closes (hsource ▸ outer)
    · refine advanceCode_advances hsound (fun hnil hstrict => ?_) (fun hz rest => ?_) fun rest hr => ?_
      · obtain ⟨braces,ends⟩ := ends hstrict
        rw [← hremaining,hnil] at ends
        cases ends
      · rw [hm,hmodes]
        refine .interpolation (fun hstrict => ?_) (hsource ▸ recorded) closes (hsource ▸ outer)
        have hne : lexer.input.readRemaining ≠ [] := by
          obtain ⟨braces,ends⟩ := ends hstrict
          rintro hnil
          rw [← hremaining,hnil] at ends
          cases ends
        rw [currentPosition_eq hsound.whole (hposition hstrict hne)] at hz
        have hinside := hsound.inside (by simp [hm])
        omega
      -- the scan visits the end of the token, since the closing brace is not next
      · rw [hm,hmodes]
        refine .interpolation (fun hstrict => ?_) (hsource ▸ recorded) closes (hsource ▸ outer)
        obtain ⟨braces,ends⟩ := ends hstrict
        rw [hremaining] at hr
        rcases hr braces inner ends with h | ⟨-,hnext⟩
        · exact h
        · have hbehind := (interpolationEnd_behind ends).2
          omega

theorem advanceCode_none (h : lexer.advanceCode = none) : lexer.input.readRemaining = [] := by
  unfold advanceCode at h
  cases hremaining : lexer.input.readRemaining with
  | nil => rfl
  | cons first rest =>
    rw [hremaining] at h
    dsimp only at h
    split_ifs at h
    split at h <;> cases h

theorem advance_none (h : lexer.advance = none) : lexer.input.readRemaining = [] := by
  unfold advance at h
  split at h
  · cases h
  · cases h
  · cases h
  · split_ifs at h
    exact advanceCode_none h
  · exact advanceCode_none h

/-! ### Whole runs -/

/-- Each token starts where the one before it ends, the first at `offset`. -/
def Tiles : ℕ → List Token → Prop
  | _, [] => True
  | offset, token::tokens => token.start = offset ∧ Tiles (offset+token.value.length) tokens

/-- The first token starts at byte `offset`, and no token starts at byte `limit` or beyond. -/
def StartsBelow (limit : ℕ) : ℕ → List Token → Prop
  | _, [] => True
  | offset, token::tokens => offset < limit ∧ StartsBelow limit (offset+token.value.length) tokens

theorem StartsBelow.mono {limit bound offset : ℕ} {tokens : List Token} (h : StartsBelow limit offset tokens)
    (hle : limit ≤ bound) : StartsBelow bound offset tokens := by
  induction tokens generalizing offset with
  | nil => trivial
  | cons _ _ ih => exact ⟨h.1.trans_le hle,ih h.2⟩

/-- Where tokens follow each other, their bytes are where their positions say. -/
theorem startsBelow_of_tiles {limit offset : ℕ} {tokens : List Token} (h : Tiles offset tokens)
    (hstarts : ∀ token ∈ tokens, token.start < limit) : StartsBelow limit offset tokens := by
  induction tokens generalizing offset with
  | nil => trivial
  | cons token _ ih =>
    refine ⟨?_,ih h.2 fun next hnext => hstarts next (mem_cons_of_mem token hnext)⟩
    rw [← h.1]
    exact hstarts token mem_cons_self

/-- The tokens are the source, cut into consecutive pieces, and no mode is left open. -/
structure LosesNothing (source : List UInt8) (lexed : Lexed) : Prop where
  texts : lexed.tokens.flatMap Token.value = source
  starts : Tiles 0 lexed.tokens
  mode : lexed.lexer.mode = .code
  modes : lexed.lexer.modes = []

/-- The calls come to an end, with tokens inside the source whose positions have 32 bits. -/
theorem lexAll_ends {cs : ℕ} (hsound : Sound False lexer) (hcalls : lexer.rank < cs) :
    ∃ lexed, lexAll cs lexer = some lexed ∧
    StartsBelow lexer.input.bytes.length lexer.input.offset lexed.tokens ∧
    ∀ token ∈ lexed.tokens, token.start < 2 ^ 32 := by
  induction cs generalizing lexer with
  | zero => exact absurd hcalls (Nat.not_lt_zero _)
  | succ _ ih =>
    have hadvances := advance_advances hsound False.elim
    rw [lexAll]
    generalize lexer.advance = step at hadvances
    rcases step with _ | ⟨e | token,next⟩
    · exact ⟨_,rfl,trivial,by simp⟩
    · exact ⟨_,rfl,trivial,by simp⟩
    obtain ⟨t',next',heq,ht,hstart,hoffset,hbytes,hlt,hnext,hrank⟩ := hadvances
    obtain ⟨htoken,rfl⟩ := Prod.mk.inj heq
    obtain rfl := Except.ok.inj htoken
    obtain ⟨lexed,hlexed,hbelow,hstarts⟩ := ih hnext (by omega)
    refine ⟨{ lexed with tokens := token::lexed.tokens },by simp only [hlexed,map_some],⟨hlt,?_⟩,fun t hmem => ?_⟩
    · rw [← hoffset,← hbytes]
      exact hbelow
    · rcases mem_cons.mp hmem with rfl | hmem
      · rw [hstart]
        exact currentPosition_lt _
      · exact hstarts t hmem

/-- Without an error, and with no token beyond the positions, the calls return what is ahead. -/
theorem lexAll_whole {cs : ℕ} {lexed : Lexed} (hsound : Sound True lexer) (h : lexAll cs lexer = some lexed)
    (herr : lexed.error = none) (hbelow : StartsBelow (2 ^ 32) lexer.input.offset lexed.tokens) :
    lexed.tokens.flatMap Token.value = lexer.input.readRemaining ∧ Tiles lexer.input.offset lexed.tokens ∧
      lexed.lexer.mode = .code ∧ lexed.lexer.modes = [] := by
  induction cs generalizing lexer lexed with
  | zero => cases h
  | succ _ ih =>
    rw [lexAll] at h
    cases hstep : lexer.advance with
    | none =>
      rw [hstep] at h
      cases h
      have hadvances := advance_advances hsound fun _ hne => absurd (advance_none hstep) hne
      rw [hstep] at hadvances
      exact ⟨hadvances.1.symm,trivial,hadvances.2 trivial⟩
    | some step =>
      rw [hstep] at h
      rcases step with ⟨e | token,next⟩
      · cases h
        cases herr
      obtain ⟨rest,hrest,rfl⟩ := map_eq_some_iff.mp h
      have hadvances := advance_advances hsound fun _ _ => hbelow.1
      rw [hstep] at hadvances
      obtain ⟨t',next',heq,ht,hstart,hoffset,_,_,hnext,_⟩ := hadvances
      obtain ⟨htoken,rfl⟩ := Prod.mk.inj heq
      obtain rfl := Except.ok.inj htoken
      obtain ⟨htexts,htiles,hmodes⟩ := ih hnext hrest herr (hoffset ▸ hbelow.2)
      refine ⟨?_,⟨?_,?_⟩,hmodes⟩
      · rw [flatMap_cons,htexts,ht]
      · rw [hstart,currentPosition_eq hsound.whole hbelow.1]
      · rw [← hoffset]
        exact htiles

theorem sound_new (strict : Prop) (source : List UInt8) : Sound strict (new (.new source)) where
  within := Nat.zero_le _
  whole := rfl
  inside := fun hm => absurd rfl hm
  aligned := .code _

/-- Every source is lexed in finitely many calls. Without an error, the tokens are the source, each starts where the one
before it ends, and the lexer ends in code with no mode on its stack, exactly if no token starts at byte `2 ^ 32` or
beyond. -/
theorem lexing_loses_nothing (source : List UInt8) :
    ∃ lexed, lexAll (2*source.length+1) (new (.new source)) = some lexed ∧
      (lexed.error = none → (LosesNothing source lexed ↔ StartsBelow (2 ^ 32) 0 lexed.tokens)) ∧
      (source.length ≤ 2 ^ 32 → StartsBelow (2 ^ 32) 0 lexed.tokens) := by
  obtain ⟨lexed,hlexed,hbelow,hstarts⟩ := lexAll_ends (sound_new False source) (Nat.lt_succ_self _)
  refine ⟨lexed,hlexed,fun herror => ⟨fun h => startsBelow_of_tiles h.starts hstarts,fun h => ?_⟩,hbelow.mono⟩
  obtain ⟨htexts,htiles,hmode,hmodes⟩ := lexAll_whole (sound_new True source) hlexed herror h
  exact ⟨htexts,htiles,hmode,hmodes⟩

/-- A string inside an interpolation of a string. -/
def nestedSource : List UInt8 := text "\"a\x7b\"$b\"\x7d\""

theorem lexing_loses_nothing_nested :
    ∃ lexed, lexAll (2*nestedSource.length+1) (new (.new nestedSource)) = some lexed ∧
      lexed.error = none ∧ LosesNothing nestedSource lexed := by
  obtain ⟨lexed,hlexed,hspec,hshort⟩ := lexing_loses_nothing nestedSource
  have herror : (lexAll (2*nestedSource.length+1) (new (.new nestedSource))).map Lexed.error = some none := by
    decide +kernel
  rw [hlexed,map_some,some.injEq] at herror
  exact ⟨lexed,hlexed,herror,(hspec herror).mpr (hshort (by decide))⟩

/-! ### Beyond 32-bit positions -/

/-- What stands after the padding: what looks like a shebang, and the end of the interpolation and the string. -/
def farTail : List UInt8 := [0x23,0x21,slash,rightBrace,doubleQuote]

def paddedSource (n : ℕ) : List UInt8 := doubleQuote::leftBrace::(List.replicate n 0x20++farTail)

theorem paddedSource_length (n : ℕ) : (paddedSource n).length = n+7 := by
  simp [paddedSource,farTail]

abbrev padding (n : ℕ) : List UInt8 := List.replicate n 0x20++farTail

theorem plain_padding (n : ℕ) : Plain n (padding n) := by
  intro byte hb
  rw [take_left' (length_replicate ..)] at hb
  rw [eq_of_mem_replicate hb]
  decide

theorem interpolationEnd_padding (n : ℕ) : interpolationEnd 1 (padding n) = some [doubleQuote] := by
  rw [interpolationEnd_drop (plain_padding n),drop_left' (length_replicate ..)]
  decide

theorem stringEnd_padding (n : ℕ) : stringEnd doubleQuote (leftBrace::padding n) = some [] := by
  rw [stringEnd_cons,if_neg (by decide),if_neg (by decide),if_pos rfl,interpolationEnd_padding]
  rfl

/-- The lexer at an offset of the padded source. -/
def padded (n offset : ℕ) (mode : Mode) (modes : List Mode) : Lexer := ⟨⟨paddedSource n,offset,0⟩,mode,modes⟩

theorem padded_readRemaining (n o : ℕ) (mode : Mode) (ms : List Mode) :
    (padded n o mode ms).input.readRemaining = (paddedSource n).drop o := rfl

variable {n : ℕ}

theorem padded_emit (mode : Mode) (ms : List Mode)
    (hlen : o+len ≤ n+7) (next : Mode) (stack : List Mode) : (padded n o mode ms).emit kind len next stack =
      (.ok ⟨kind,((paddedSource n).drop o).take len,(padded n o mode ms).input.currentPosition⟩,
        padded n (o+len) next stack) := by
  unfold emit Input.skip padded
  rw [paddedSource_length,min_eq_left hlen]
  rfl

theorem findOperator_none {t : List (List UInt8 × TokenKind)}
    (h : ∀ operator ∈ t, operator.1.head?.any (· != f)) (rest : List UInt8) :
    findOperator t (f::rest) = none := by
  refine find?_eq_none.mpr fun operator hmem => ?_
  have hhead := h operator hmem
  cases ht : operator.1 with
  | nil => simp [ht] at hhead
  | cons =>
    simp only [ht,head?_cons,any_some,bne_iff_ne] at hhead
    simp [List.isPrefixOf,hhead]

theorem scanToken_padding (n i : ℕ) : scanToken i doubleQuote (leftBrace::padding n) = .interpolated := by
  have hneeds : needsInterpolation (doubleQuote::leftBrace::padding n) = true := by
    unfold needsInterpolation
    rw [drop_succ_cons,drop_zero,dropLast_cons_of_ne_nil (by simp [farTail])]
    rfl
  have hscan : scan doubleQuote (leftBrace::padding n) = some (doubleQuote::leftBrace::padding n).length := by
    rw [scan,stringEnd_padding]
    rfl
  have hremainder : scanRemainder i doubleQuote (leftBrace::padding n) = .interpolated := by
    have hslash : doubleQuote ≠ slash := by decide
    unfold scanRemainder
    rw [if_neg (fun h => hslash h.1),if_neg (fun h => hslash h.1),if_pos (.inr rfl),scanStringLiteral,hscan]
    dsimp only
    rw [take_length,if_pos ⟨rfl,hneeds⟩]
  have hdollar : doubleQuote ≠ dollar := by decide
  have hsimple : simpleToken doubleQuote = none := by decide
  unfold scanToken
  rw [if_neg (by decide),hsimple]
  rw [if_neg (by decide),if_neg (fun h => hdollar h.1),findOperator_none (by decide)]
  exact hremainder

theorem not_shebang (h : f ≠ 0x23) (rest : List UInt8) :
    ¬[0x23,0x21,slash].isPrefixOf (f::rest) := fun hstarts =>
  h (cons_prefix_cons.mp (List.isPrefixOf_iff_prefix.mp hstarts)).1.symm

/-- Before the recorded brace an interpolation is lexed as code. -/
theorem padded_code {closing : ℕ} (h : o ≠ closing) (ms : List Mode) :
    (padded n o (.bracedInterpolation closing) ms).advance =
      (padded n o (.bracedInterpolation closing) ms).advanceCode :=
  if_neg h

theorem padded_opens (n : ℕ) : (padded n 0 .code []).advance =
    some (.ok ⟨.stringPart,[doubleQuote],0⟩,padded n 1 (.bracedInterpolationStart (n+5)) [.code]) := by
  have hp : scanPart ((paddedSource n).length+1) ((paddedSource n).drop 1) =
      .interpolation (leftBrace::padding n) [doubleQuote] := by
    rw [paddedSource,drop_succ_cons,drop_zero,scanPart,if_neg (by decide),
      if_neg (fun h => absurd h.1 (by decide)),if_pos rfl,interpolationEnd_padding]
    rfl
  have hstring : (padded n 0 (.string true) [.code]).advanceString true =
      (.ok ⟨.stringPart,[doubleQuote],0⟩,padded n 1 (.bracedInterpolationStart (n+5)) [.code]) := by
    unfold advanceString
    dsimp only
    rw [padded_readRemaining,drop_zero,toNat_true,hp,paddedSource_length]
    dsimp only
    rw [padded_emit _ _ (by simp [farTail])]
    simp [farTail,paddedSource,padded,Input.currentPosition]
  change (padded n 0 .code []).advanceCode = _
  unfold advanceCode
  rw [padded_readRemaining,drop_zero,paddedSource]
  dsimp only
  rw [if_neg (fun h => not_shebang (by decide) _ h.2),scanToken_padding]
  exact congrArg some hstring

theorem padded_enters (n : ℕ) : (padded n 1 (.bracedInterpolationStart (n+5)) [.code]).advance =
    some (.ok ⟨.leftBrace,[leftBrace],1⟩,padded n 2 (.bracedInterpolation (n+5)) [.code]) := by
  change some ((padded n 1 (.bracedInterpolationStart (n+5)) [.code]).emit .leftBrace 1 _ _) = _
  rw [padded_emit _ _ (by omega)]
  rfl

theorem padded_drop (n : ℕ) : (paddedSource n).drop (n+2) = farTail := by
  rw [paddedSource,drop_succ_cons,drop_succ_cons,drop_left' (length_replicate ..)]

theorem padded_blanks (n : ℕ) : (padded (n+1) 2 (.bracedInterpolation (n+6)) [.code]).advance =
    some (.ok ⟨.whitespace,List.replicate (n+1) 0x20,2⟩,
      padded (n+1) (n+3) (.bracedInterpolation (n+6)) [.code]) := by
  have htoken : scanToken 2 0x20 (padding n) = .token .whitespace (n+1) := by
    unfold scanToken
    rw [if_pos (by decide),← cons_append,← replicate_succ,takeWhile_append_of_pos]
    · simp [farTail,isWhitespace]
    intro byte hb
    rw [eq_of_mem_replicate hb]
    decide
  rw [padded_code (by omega),advanceCode]
  rw [padded_readRemaining,paddedSource,drop_succ_cons,drop_succ_cons,drop_zero,
    replicate_succ,cons_append]
  dsimp only
  rw [if_neg (fun h => not_shebang (by decide) _ h.2)]
  have hpos : (padded (n+1) 2 (.bracedInterpolation (n+6)) [.code]).input.currentPosition = 2 := rfl
  rw [hpos,htoken]
  dsimp only
  rw [padded_emit _ _ (by omega),hpos,paddedSource,drop_succ_cons,drop_succ_cons,drop_zero,
    take_left' (length_replicate ..),Nat.add_comm 2]
  rfl

/-- At an offset that is a multiple of the number of positions, the position is zero again. -/
theorem padded_wraps (h : (n+2) % 2 ^ 32 = 0) : (padded n (n+2) (.bracedInterpolation (n+5)) [.code]).advance =
    some (.ok ⟨.shebang,farTail,0⟩,padded n (n+7) (.bracedInterpolation (n+5)) [.code]) := by
  have hpos : (padded n (n+2) (.bracedInterpolation (n+5)) [.code]).input.currentPosition = 0 := by
    change min (0+(n+2) % 2 ^ 32) (2 ^ 32-1) = 0
    rw [h]
    rfl
  rw [padded_code (by omega),advanceCode]
  rw [padded_readRemaining,padded_drop,hpos]
  dsimp only [farTail]
  rw [if_pos ⟨rfl,by decide⟩]
  have hlen : throughNewline farTail = 5 := by decide
  change some (emit _ _ (throughNewline farTail) _ _) = _
  rw [hlen,padded_emit _ _ (by omega),padded_drop,hpos]
  rfl

theorem padded_ends (n : ℕ) : (padded n (n+7) (.bracedInterpolation (n+5)) [.code]).advance = none := by
  rw [padded_code (by omega),advanceCode]
  rw [padded_readRemaining,drop_of_length_le (paddedSource_length n).le]

/-- A string whose interpolation has, after the padding, what looks like a shebang exactly where positions start
over: the lexer takes it for one, with the closing brace and quote, and ends inside the interpolation. -/
theorem far_shebang_leaves_interpolation :
    ∃ lexed, lexAll 5 (new (.new (paddedSource (2 ^ 32-2)))) = some lexed ∧ lexed.error = none ∧
      ¬LosesNothing (paddedSource (2 ^ 32-2)) lexed := by
  have hrun : ∀ n, (n+3) % 2 ^ 32 = 0 →
      ∃ lexed, lexAll 5 (new (.new (paddedSource (n+1)))) = some lexed ∧ lexed.error = none ∧
        lexed.lexer.mode ≠ .code := by
    intro n h
    change ∃ lexed, lexAll 5 (padded (n+1) 0 .code []) = some lexed ∧ _
    simp only [lexAll,padded_opens,padded_enters,padded_blanks,padded_wraps h,padded_ends,map_some]
    exact ⟨_,rfl,rfl,by simp [padded]⟩
  obtain ⟨lexed,hlexed,herror,hmode⟩ := hrun (2 ^ 32-3) (by decide)
  exact ⟨lexed,hlexed,herror,fun h => hmode h.mode⟩

end Whim.Lexer
