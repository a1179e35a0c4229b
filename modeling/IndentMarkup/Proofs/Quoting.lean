import IndentMarkup.Proofs.Assignments
import IndentMarkup.Proofs.Brackets
import Mathlib.Data.List.Infix

/-!
# Quotes in groups and in their tokens

A group is looked at twice. Once to find the bracket that closes it, where quoted parts are
skipped, and once to cut its inner text into tokens, where these are literals. The two scanners
agree on what is quoted (`Bracket.scan_of_group`): a literal token starts and ends exactly where a
skipped part does. So a literal in a group is always closed, and a group of a source can always be
cut into tokens.

They agree only on texts without line feeds. A backslash in a literal does not take a line feed with
it, and in a skipped part it does.
-/

namespace IndentMarkup

namespace Token

variable {k : Token} {ks : List Token} {off : Nat} {b : UInt8} {t : Bytes}

/-- Where the quoted literals among the tokens of a text at the offset `off` start, and the offsets
    after their ends. -/
def literalRanges (off : Nat) : List Token → List (Nat × Nat)
  | [] => []
  | literal t :: ks => (off, off + t.length) :: literalRanges (off + t.length) ks
  | k :: ks => literalRanges (off + k.text.length) ks

theorem next?_of_isGapByte (hb : isGapByte b) (t : Bytes) :
    next? (b :: t) = some (gap (b :: t.takeWhile isGapByte), t.dropWhile isGapByte) := by
  obtain ⟨hquote, heq⟩ := not_isQuote_of_isGapByte hb
  rw [next?, if_neg (by simp [hquote]), if_neg heq, if_pos hb]

theorem next?_of_isWordByte (hb : isWordByte b) (t : Bytes) :
    next? (b :: t) = some (word (b :: t.takeWhile isWordByte), t.dropWhile isWordByte) := by
  obtain ⟨hgap, heq, hquote⟩ := isWordByte_iff.1 hb
  rw [next?, if_neg (by simp [hquote]), if_neg heq, if_neg (by simp [hgap])]

/-- Words and white space are no literals, so the literals of a text are those after a run of such
    bytes. -/
theorem literalRanges_run (p : UInt8 → Bool) (mk : Bytes → Token)
    (hnext : ∀ b t, p b → next? (b :: t) = some (mk (b :: t.takeWhile p), t.dropWhile p))
    (hmk : ∀ off s ks, literalRanges off (mk s :: ks) = literalRanges (off + s.length) ks)
    (t : Bytes) :
    (scan t).2 = (scan (t.dropWhile p)).2 ∧
      ∀ off, literalRanges off (scan t).1 =
        literalRanges (off + (t.takeWhile p).length) (scan (t.dropWhile p)).1 := by
  cases t with
  | nil => exact ⟨rfl, fun _ => rfl⟩
  | cons b t =>
    by_cases hb : p b
    · rw [scan_of_next? (hnext b t hb), List.takeWhile_cons_of_pos hb,
        List.dropWhile_cons_of_pos hb]
      exact ⟨rfl, fun off => hmk off _ _⟩
    · rw [List.takeWhile_cons_of_neg hb, List.dropWhile_cons_of_neg hb]
      exact ⟨rfl, fun _ => rfl⟩

/-- A byte that is no quote does not change what is quoted after it. -/
theorem literalRanges_cons (hb : Byte.isQuote b = false) (t : Bytes) :
    (scan (b :: t)).2 = (scan t).2 ∧
      ∀ off, literalRanges off (scan (b :: t)).1 = literalRanges (off + 1) (scan t).1 := by
  by_cases hgap : isGapByte b
  · obtain ⟨hleft, hranges⟩ := literalRanges_run isGapByte gap
      (fun b t hb => next?_of_isGapByte hb t) (fun _ _ _ => rfl) t
    rw [scan_of_next? (next?_of_isGapByte hgap t), hleft]
    refine ⟨rfl, fun off => ?_⟩
    rw [hranges, Nat.add_right_comm]
    rfl
  by_cases heq : b = Byte.eq
  · have hnext : next? (b :: t) = some (assign, t) := by
      rw [heq]
      rfl
    rw [scan_of_next? hnext]
    exact ⟨rfl, fun _ => rfl⟩
  · have hword : isWordByte b := isWordByte_iff.2 ⟨by simpa using hgap, heq, hb⟩
    obtain ⟨hleft, hranges⟩ := literalRanges_run isWordByte word
      (fun b t hb => next?_of_isWordByte hb t) (fun _ _ _ => rfl) t
    rw [scan_of_next? (next?_of_isWordByte hword t), hleft]
    refine ⟨rfl, fun off => ?_⟩
    rw [hranges, Nat.add_right_comm]
    rfl

end Token

namespace Bracket

variable {k : Bracket} {depth : Int} {off n : Nat} {t inner rest : Bytes} {parts : List (Nat × Nat)}

/-- A byte that is no quote is passed by, whether it is a bracket or not, unless the scanner stops
    there. -/
theorem trace_step {b : UInt8} (hb : Byte.isQuote b = false)
    (h : k.trace none depth off (b :: t) = some (n, parts)) :
    (∃ depth', k.trace none depth' (off + 1) t = some (n, parts)) ∨ n = off ∧ parts = [] := by
  rw [trace, if_neg (by simp [hb])] at h
  split_ifs at h
  · exact .inl ⟨_, h⟩
  · cases h
    exact .inr ⟨rfl, rfl⟩
  · exact .inl ⟨_, h⟩
  · exact .inl ⟨_, h⟩

/-- The text up to where the scanner for brackets stops can be cut into tokens, and the literals
    among these are what the scanner skipped. -/
theorem scan_of_trace (h : k.trace none depth off t = some (n, parts)) (ht : t.OneLine) :
    ∃ s rest, t = s ++ rest ∧ n = off + s.length ∧ (Token.scan s).2 = [] ∧
      Token.literalRanges off (Token.scan s).1 = parts := by
  -- A quoted part is one step for the tokens and many for the brackets, so the induction is on
  -- the length.
  induction hlen : t.length using Nat.strong_induction_on generalizing t depth off parts with
  | _ len ih =>
    subst hlen
    cases t with
    | nil => cases h
    | cons b t =>
      obtain ⟨-, ht⟩ := Bytes.oneLine_cons.1 ht
      by_cases hquote : Byte.isQuote b
      · rw [trace, if_pos hquote] at h
        obtain ⟨body, rest, parts', rfl, hbody, hrest, rfl⟩ := exists_of_trace_quoted h
        obtain ⟨hone, hrestone⟩ := Bytes.oneLine_append.1 ht
        have hlt : rest.length < (b :: (body ++ rest)).length := by
          simp only [List.length_cons, List.length_append]
          omega
        obtain ⟨s, rest', rfl, rfl, hleft, hranges⟩ := ih _ hlt hrest hrestone rfl
        -- Without a line feed in it, the skipped part is a literal.
        have hliteral : (Token.literal (b :: body)).WellFormed :=
          ⟨b, body, hquote, rfl, hbody.mono fun c hc => ne_of_mem_of_not_mem hc hone⟩
        have hscan : Token.scan (b :: (body ++ s)) =
            (.literal (b :: body) :: (Token.scan s).1, (Token.scan s).2) :=
          Token.scan_append hliteral trivial
        refine ⟨b :: (body ++ s), rest', by simp, ?_, ?_, ?_⟩
        · simp only [List.length_cons, List.length_append]
          omega
        · rw [hscan]
          exact hleft
        · rw [hscan, Token.literalRanges, ← hranges, List.length_cons, Nat.add_right_comm off]
          rfl
      · rw [Bool.not_eq_true] at hquote
        rcases trace_step hquote h with ⟨depth', hstep⟩ | ⟨rfl, rfl⟩
        · obtain ⟨s, rest, rfl, rfl, hleft, hranges⟩ := ih _ (by simp) hstep ht rfl
          obtain ⟨hleft', hranges'⟩ := Token.literalRanges_cons hquote s
          refine ⟨b :: s, rest, rfl, ?_, hleft'.trans hleft, (hranges' off).trans hranges⟩
          rw [List.length_cons, Nat.add_assoc, Nat.add_comm 1]
        · refine ⟨[], b :: t, rfl, rfl, ?_⟩
          rw [Token.scan_of_next?_none rfl]
          exact ⟨rfl, rfl⟩

/-- The inner text of a group can be cut into tokens, and the literals among these are the parts of
    the group that were skipped. -/
theorem exists_scan_of_group (ht : t.OneLine) (hhead : t.head? = some k.opening)
    (h : k.group off t = .ok (inner, rest)) :
    ∃ ks, Token.scan inner = (ks, []) ∧
      k.trace none 0 off t = some (off + inner.length + 1, Token.literalRanges (off + 1) ks) := by
  obtain ⟨rfl, hinner⟩ := (group_eq_ok_iff hhead).1 h
  have hfst := k.trace_balanced hinner Int.one_pos (off + 1) (k.closing :: rest)
  rw [trace_closing, if_pos rfl] at hfst
  obtain ⟨⟨n, parts⟩, htrace, rfl⟩ := Option.map_eq_some_iff.1 hfst
  obtain ⟨s, rest', hs, hlen, hleft, rfl⟩ := scan_of_trace htrace (Bytes.oneLine_cons.1 ht).2
  obtain ⟨rfl, -⟩ := List.append_inj hs (by simp only at hlen; omega)
  refine ⟨_, Prod.ext rfl hleft, ?_⟩
  rw [trace_opening, Int.zero_add, htrace, Nat.add_right_comm]

end Bracket

/-! ## Reports -/

/-- A group that can be cut into tokens is at fault at one of its tokens or at its end. -/
theorem Attribute.exists_place_of_parse {t : Bytes} {ks : List Token} {f : Fault}
    (hks : Token.scan t = (ks, [])) (h : parse t = .error f) :
    ∃ m ∈ places t.length (Token.marked ks), ∃ e,
      f = ⟨m.1, m.1 + 1, .unexpectedToken (shown m.2) e⟩ := by
  rw [parse_of_scan hks] at h
  obtain ⟨i, m, e, hm, -, hf⟩ := isFirstImpossible_of_assignments h
  exact ⟨m, List.mem_of_getElem? hm, e, hf⟩

namespace Problem

/-- Whether the message of a problem may start like that of a text that cannot be cut into tokens.
    The message for a block without an argument starts with the word that opens the block, so this
    has to be a keyword. -/
def isLexical : Problem → Bool
  | invalidInput _ => true
  | missingArgument word => !Keyword.isKnown ⟨word⟩
  | _ => false

variable {p : Problem}

/-- A text does not start with `s` if its first part differs from `s` already. -/
theorem not_isPrefix_append {s w r : Bytes} (h : ¬s.take w.length <+: w) : ¬s <+: w ++ r := by
  intro hs
  have htake := hs.take w.length
  rw [List.take_left] at htake
  exact h htake

theorem not_isPrefix_message (h : p.isLexical = false) :
    ¬("invalid input text" : Bytes) <+: p.message := by
  cases p with
  | invalidInput _ => cases h
  | missingArgument word =>
    have hknown : Keyword.isKnown ⟨word⟩ := by simpa [isLexical] using h
    rcases Keyword.isKnown_iff.1 hknown with hw | hw | hw | hw <;> cases hw <;> decide +kernel
  | foreignIndent _ | unevenIndent _ _ | skippedLevel _ | nestedInInline _ | unknownKeyword _
  | repeatedId _ | missingName _ | openGroup _ _ | unexpectedToken _ _ =>
    simp only [message, List.append_assoc]
    exact not_isPrefix_append (by decide +kernel)
  | _ => decide +kernel

theorem kind_of_isLexical (h : p.isLexical) :
    p.kind = .malformedAttribute ∨ p.kind = .malformedBlock := by
  cases p with
  | invalidInput _ => exact .inl rfl
  | missingArgument _ => exact .inr rfl
  | _ => cases h

/-- What is wrong with an indentation, a nesting or an else is no matter of tokens. -/
theorem isLexical_of_kind (h : p.kind = .indentation ∨ p.kind = .unexpectedElse) :
    p.isLexical = false := by
  refine Bool.eq_false_iff.2 fun hlex => ?_
  rcases kind_of_isLexical hlex with h' | h' <;> simp [h'] at h

end Problem

variable {f : Fault} {t : Bytes}

theorem Span.isLexical_of_parseFrom {off : Nat} (h : parseFrom off t = .error f) :
    f.problem.isLexical = false := by
  fun_induction parseFrom off t with
  | case1 => cases h
  | case2 =>
    cases h
    rfl
  | case3 =>
    cases h
    rfl
  | case4 off t lit rest hcut start n hn value next hv _ ih =>
    rcases bind_eq_error_iff.1 h with h | ⟨tail, -, h⟩
    · exact ih h
    · cases h

namespace Element

variable {len start stop off : Nat} {el : Element} {inner rest : Bytes} {k : Bracket}

theorem isLexical_of_readTag (h : readTag t = .error f) : f.problem.isLexical = false := by
  unfold readTag at h
  split at h
  · simp only at h
    split_ifs at h
    cases h
    rfl
  · cases h

theorem isLexical_of_readShorthands (h : readShorthands len el t = .error f) :
    f.problem.isLexical = false := by
  fun_induction readShorthands len el t with
  | case1 el c t name rest _ _ ih => exact ih h
  | case2 el s c t _ name rest _ _ _ ih => exact ih h
  | case3 =>
    cases h
    rfl
  | case4 => cases h
  | case5 => cases h

/-- The attributes of a group are never cut into tokens in vain. -/
theorem isLexical_of_attributes (ht : t.OneLine) (hhead : t.head? = some k.opening)
    (hgroup : k.group off t = .ok (inner, rest))
    (h : (Attribute.parse inner).mapError (Fault.shift (start + 1)) = .error f) :
    f.problem.isLexical = false := by
  obtain ⟨g, hg, rfl⟩ := mapError_eq_error_iff.1 h
  obtain ⟨ks, hks, -⟩ := Bracket.exists_scan_of_group ht hhead hgroup
  obtain ⟨m, -, e, rfl⟩ := Attribute.exists_place_of_parse hks hg
  rfl

theorem isLexical_of_group (h : k.group off t = .error f) : f.problem.isLexical = false := by
  rw [Bracket.group] at h
  split at h
  · cases h
  · cases h
    rfl

theorem isLexical_of_readGroups (h : readGroups len el t = .error f) (ht : t.OneLine) :
    f.problem.isLexical = false := by
  fun_induction readGroups len el t with
  | case1 el t start hhead g hgroup =>
    cases h
    exact isLexical_of_group hgroup
  | case2 el t start hhead inner rest hgroup _ g hadd =>
    cases h
    rcases bind_eq_error_iff.1 hadd with hadd | ⟨_, -, hadd⟩
    · exact isLexical_of_attributes (k := .round) ht hhead hgroup hadd
    · cases hadd
  | case3 el t start hhead inner rest hgroup _ el' hadd ih =>
    exact ih h (Bracket.oneLine_of_group hgroup ht).2
  | case4 el t start hhead g hgroup =>
    cases h
    exact isLexical_of_group hgroup
  | case5 el t start hhead inner rest hgroup _ g hadd =>
    cases h
    rw [addBraces] at hadd
    split_ifs at hadd
    · cases hadd
      rfl
    · cases hadd
      rfl
    · rcases bind_eq_error_iff.1 hadd with hadd | ⟨_, -, hadd⟩
      · exact isLexical_of_attributes (k := .curly) ht hhead hgroup hadd
      · cases hadd
    · simp only at hadd
      split_ifs at hadd
      cases hadd
      rfl
  | case6 el t start hhead inner rest hgroup _ el' hadd ih =>
    exact ih h (Bracket.oneLine_of_group hgroup ht).2
  | case7 => cases h

theorem isLexical_of_readContent (h : readContent len t = .error f) :
    f.problem.isLexical = false := by
  unfold readContent at h
  split at h
  · simp only at h
    split_ifs at h
    cases h
    rfl
  · exact Span.isLexical_of_parseFrom h

theorem isLexical_of_parse (h : parse t = .error f) (ht : t.OneLine) :
    f.problem.isLexical = false := by
  rcases bind_eq_error_iff.1 h with h | ⟨⟨el₁, t₁⟩, h₁, h⟩
  · exact isLexical_of_readTag h
  rcases bind_eq_error_iff.1 h with h | ⟨⟨el₂, t₂⟩, h₂, h⟩
  · exact isLexical_of_readShorthands h
  simp only at h
  split at h
  · cases h
    rfl
  rcases bind_eq_error_iff.1 h with h | ⟨⟨el₃, t₃⟩, h₃, h⟩
  · obtain ⟨hel₁, ht₁⟩ := oneLine_of_readTag h₁ ht
    exact isLexical_of_readGroups h (oneLine_of_readShorthands h₂ hel₁ ht₁).2
  rcases bind_eq_error_iff.1 h with h | ⟨_, -, h⟩
  · exact isLexical_of_readContent h
  · cases h

end Element

theorem Block.isLexical_of_parse (h : parse t = .error f) : f.problem.isLexical = false := by
  unfold parse at h
  simp only at h
  split_ifs at h with hword hknown helse hempty hempty
  · cases h
    rfl
  · cases h
    rfl
  · cases h
    rfl
  · cases h
    simpa [Problem.isLexical] using hknown

theorem isLexical_of_parseExpression (h : parseExpression t = .error f) :
    f.problem.isLexical = false := by
  unfold parseExpression at h
  simp only at h
  split_ifs at h
  cases h
  rfl

theorem Node.isLexical_of_ofText {r : Range} (h : ofText r t = .error f) (ht : t.OneLine) :
    f.problem.isLexical = false := by
  unfold ofText at h
  split_ifs at h
  · rcases bind_eq_error_iff.1 h with h | ⟨_, -, h⟩
    · exact Block.isLexical_of_parse h
    · cases h
  · rcases bind_eq_error_iff.1 h with h | ⟨_, -, h⟩
    · exact isLexical_of_parseExpression h
    · cases h
  · rcases bind_eq_error_iff.1 h with h | ⟨_, -, h⟩
    · exact Element.isLexical_of_parse h ht
    · cases h
  · rcases bind_eq_error_iff.1 h with h | ⟨_, -, h⟩
    · exact Span.isLexical_of_parseFrom h
    · cases h

theorem Line.isLexical_of_fault? {before : List Line} {l : Line} (h : l.fault? before = some f)
    (hl : l.text.OneLine) : f.problem.isLexical = false := by
  simp only [fault?, Option.orElse_eq_orElse, Option.orElse_eq_or, Option.or_eq_some_iff] at h
  rcases h with h | ⟨-, h | ⟨-, h | ⟨-, h⟩⟩⟩
  · exact Problem.isLexical_of_kind (.inl (Option.some.inj (kind_of_levelFault? h)))
  · exact Problem.isLexical_of_kind (.inl (Option.some.inj (kind_of_parentFault? h)))
  · rw [textFault?] at h
    split at h
    · rename_i g hg
      cases h
      exact Node.isLexical_of_ofText hg hl
    · cases h
  · exact Problem.isLexical_of_kind (.inr (Option.some.inj (kind_of_elseFault? h)))

/-- What is reported of a source is never that a group cannot be cut into tokens. -/
theorem Document.exists_problem_of_parse {file src : Bytes} {d : Diagnostic}
    (h : Document.parse file src = .error d) :
    ∃ (p : Problem) (r : Range) (raw : Bytes), d = p.diagnostic r raw ∧ p.isLexical = false := by
  rcases parse_error_iff.1 h with h | ⟨lines, l, f, hl, hf, rfl⟩
  · obtain ⟨i, raw, unit, -, hplace⟩ := Line.placeAll_eq_error h
    obtain ⟨p, hp, rfl, -⟩ := Line.place_eq_error hplace
    exact ⟨p, _, raw, rfl, Problem.isLexical_of_kind (.inl hp)⟩
  · obtain ⟨before, after, hls, -, hfault⟩ := Line.firstFault?_eq_some_iff.1 hf
    have hmem : l ∈ Line.content lines := by
      rw [hls]
      exact List.mem_append_right before List.mem_cons_self
    have hone := Line.oneLine_of_split hl l (List.mem_filter.1 hmem).1
    exact ⟨f.problem, _, l.raw, rfl, Line.isLexical_of_fault? hfault hone⟩

/-- The two scanners of a group agree on what is quoted in it. On a line, the inner text of a group
    can be cut into tokens, and the literals among these are the quoted parts that were skipped when
    the closing bracket was looked for. So what can be wrong with the attributes of a group is a
    token, or its end, that is not expected, and no message about a source says that a text cannot
    be cut into tokens. -/
theorem Bracket.scan_of_group :
    (∀ (k : Bracket) (t : Bytes) (pos : Nat) (inner rest : Bytes), t.OneLine →
      t[pos]? = some k.opening → k.group pos (t.drop pos) = .ok (inner, rest) →
      ∃ ks, Token.scan inner = (ks, []) ∧
        k.trace none 0 pos (t.drop pos) =
          some (pos + inner.length + 1, Token.literalRanges (pos + 1) ks) ∧
        ∀ f, Attribute.parse inner = .error f →
          ∃ m ∈ Attribute.places inner.length (Token.marked ks), ∃ e,
            f = ⟨m.1, m.1 + 1, .unexpectedToken (Attribute.shown m.2) e⟩) ∧
    (∀ (k : Bracket) (t : Bytes) (pos : Nat),
      (k.trace none 0 pos t).map Prod.fst = (k.close none 0 t).map (· + pos)) ∧
    ∀ (file src : Bytes) (d : Diagnostic), Document.parse file src = .error d →
      ∀ x ∈ d.details, ¬("invalid input text" : Bytes) <+: x.message := by
  refine ⟨fun k t pos inner rest ht hpos h => ?_, fun k t pos => k.map_fst_trace none 0 pos t,
    fun file src d h x hx => ?_⟩
  · have hhead : (t.drop pos).head? = some k.opening := by rwa [List.head?_drop]
    obtain ⟨ks, hks, htrace⟩ :=
      exists_scan_of_group (ht.of_sublist (List.drop_sublist _ _)) hhead h
    exact ⟨ks, hks, htrace, fun f hf => Attribute.exists_place_of_parse hks hf⟩
  · obtain ⟨p, r, raw, rfl, hp⟩ := Document.exists_problem_of_parse h
    rw [List.mem_singleton.1 hx]
    exact Problem.not_isPrefix_message hp

/-- An escaped quote and brackets of both kinds in literals. -/
theorem Bracket.scan_of_group_escaped :
    ∃ ks, Token.scan "b='c)\\'d' e=\"(\" f" = (ks, []) ∧
      Token.literalRanges 3 ks = [(5, 12), (15, 18)] ∧
      ∀ f, Attribute.parse "b='c)\\'d' e=\"(\" f" = .error f →
        ∃ m ∈ Attribute.places 17 (Token.marked ks), ∃ e,
          f = ⟨m.1, m.1 + 1, .unexpectedToken (Attribute.shown m.2) e⟩ := by
  have hgroup : Bracket.round.group 2 (List.drop 2 ("%a(b='c)\\'d' e=\"(\" f) g" : Bytes)) =
      .ok ("b='c)\\'d' e=\"(\" f", " g") := toOption_eq_some_iff.1 (by decide +kernel)
  have htrace : Bracket.round.trace none 0 2 (List.drop 2 ("%a(b='c)\\'d' e=\"(\" f) g" : Bytes)) =
      some (20, [(5, 12), (15, 18)]) := by decide +kernel
  obtain ⟨ks, hks, htrace', hparse⟩ :=
    Bracket.scan_of_group.1 .round "%a(b='c)\\'d' e=\"(\" f) g" 2 _ _ (by decide +kernel)
      (by decide +kernel) hgroup
  exact ⟨ks, hks, (Prod.mk.inj (Option.some.inj (htrace'.symm.trans htrace))).2, hparse⟩

end IndentMarkup
