import IndentMarkup.Proofs.Header

/-!
# Which groups hold bindings

A group in braces holds bindings or a helper call, and its first two tokens decide which
(`Attribute.startsBinding`). This is decided before the group is read as attributes, so the two
have to agree. A group that is taken to hold bindings has one, or reading it fails only after the
first equals sign. Any other group says nothing as attributes: it is blank, it cannot be cut into
tokens, or reading it fails at one of the first two tokens.

So while a header is read (`Element.Reading`), there are bindings exactly if a group of bindings was
accepted, and a second such group is always found. This is `Element.startsBinding_agrees`.
-/

namespace IndentMarkup

/-! ## The first tokens -/

namespace Token

variable {g key t rest : Bytes} {ks : List Token}

/-- White space in front of a text adds no other tokens to it. -/
theorem filter_scan_gap_append (hg : ∀ b ∈ g, isGapByte b)
    (hrest : ∀ b ∈ rest.head?, isGapByte b = false) :
    (scan (g ++ rest)).1.filter (!·.isGap) = (scan rest).1.filter (!·.isGap) := by
  cases g with
  | nil => rfl
  | cons b g =>
    have hk : (gap (b :: g)).WellFormed := ⟨List.cons_ne_nil b g, hg⟩
    rw [show b :: g ++ rest = (gap (b :: g)).text ++ rest from rfl, scan_append hk hrest]
    rfl

/-- The bytes of white space are all white space. -/
theorem isGapByte_of_mem_text (hks : ∀ k ∈ ks, k.WellFormed ∧ k.isGap) :
    ∀ b ∈ ks.flatMap text, isGapByte b := by
  intro b hb
  obtain ⟨k, hk, hb⟩ := List.mem_flatMap.1 hb
  obtain ⟨hwf, hgap⟩ := hks k hk
  cases k with
  | gap s => exact hwf.2 b hb
  | literal s => cases hgap
  | assign => cases hgap
  | word s => cases hgap

theorem marked_append (ks ks' : List Token) :
    marked (ks ++ ks') =
      marked ks ++ (locate (ks.flatMap text).length ks').filter (!·.2.isGap) := by
  rw [marked, locate_append, List.filter_append, Nat.zero_add, marked]

end Token

namespace Attribute

variable {t : Bytes}

/-- The tokens of a group that starts with an assignment, up to the equals sign. -/
theorem exists_tokens_of_startsBinding (h : startsBinding t) :
    ∃ key gs gs' ks, (Token.scan t).1 = gs ++ .word key :: (gs' ++ .assign :: ks) ∧
      (∀ k ∈ gs, k.WellFormed ∧ k.isGap) ∧ key.MadeOf isWordByte ∧
      (∀ k ∈ gs', k.WellFormed ∧ k.isGap) := by
  obtain ⟨key, ks, hks⟩ := startsBinding_iff.1 h
  obtain ⟨gs, ks₁, hscan, hgs, -, hks₁⟩ := List.filter_eq_cons_iff.1 hks
  obtain ⟨gs', ks₂, rfl, hgs', -, -⟩ := List.filter_eq_cons_iff.1 hks₁
  have hwf := (Token.cut_scan t).wellFormed
  rw [hscan] at hwf
  refine ⟨key, gs, gs', ks₂, hscan, fun k hk => ⟨hwf k (by simp [hk]), ?_⟩, ?_,
    fun k hk => ⟨hwf k (by simp [hk]), ?_⟩⟩
  · simpa using hgs k hk
  · exact hwf (.word key) (by simp)
  · simpa using hgs' k hk

/-- Only white space, a word, white space and an equals sign are looked at, whatever follows. -/
theorem startsBinding_iff_text :
    startsBinding t ↔
      ∃ g key g' r, t = g ++ (key ++ (g' ++ Byte.eq :: r)) ∧ (∀ b ∈ g, isGapByte b) ∧
        key.MadeOf isWordByte ∧ ∀ b ∈ g', isGapByte b := by
  constructor
  · intro h
    obtain ⟨key, gs, gs', ks, hscan, hgs, hkey, hgs'⟩ := exists_tokens_of_startsBinding h
    refine ⟨gs.flatMap Token.text, key, gs'.flatMap Token.text,
      ks.flatMap Token.text ++ (Token.scan t).2, ?_, Token.isGapByte_of_mem_text hgs, hkey,
      Token.isGapByte_of_mem_text hgs'⟩
    have ht := Token.flatMap_text_scan t
    rw [hscan, List.flatMap_append, List.flatMap_cons, List.flatMap_append, List.flatMap_cons] at ht
    simp only [List.append_assoc] at ht
    exact ht.symm
  · rintro ⟨g, key, g', r, rfl, hg, hkey, hg'⟩
    have hword : ∀ b ∈ (key ++ (g' ++ Byte.eq :: r)).head?, isGapByte b = false := by
      obtain ⟨c, cs, rfl⟩ := List.exists_cons_of_ne_nil hkey.1
      rintro _ ⟨rfl⟩
      exact (Token.isWordByte_iff.1 (hkey.2 c List.mem_cons_self)).1
    have hstop : (Token.word key).StopsAt (g' ++ Byte.eq :: r) := by
      cases g' with
      | nil =>
        rintro _ ⟨rfl⟩
        rfl
      | cons c cs =>
        rintro _ ⟨rfl⟩
        have hc : isGapByte c := hg' c List.mem_cons_self
        simp [isWordByte, hc]
    have hassign : ∀ b ∈ (Byte.eq :: r).head?, isGapByte b = false := by
      rintro _ ⟨rfl⟩
      rfl
    have hscan : Token.scan (key ++ (g' ++ Byte.eq :: r)) =
        (.word key :: (Token.scan (g' ++ Byte.eq :: r)).1, (Token.scan (g' ++ Byte.eq :: r)).2) :=
      Token.scan_append (k := .word key) hkey hstop
    have hscan' : Token.scan (Byte.eq :: r) = (.assign :: (Token.scan r).1, (Token.scan r).2) :=
      Token.scan_append (k := .assign) trivial trivial
    refine startsBinding_iff.2 ⟨key, (Token.scan r).1.filter (!·.isGap), ?_⟩
    rw [Token.filter_scan_gap_append hg hword, hscan, List.filter_cons_of_pos rfl,
      Token.filter_scan_gap_append hg' hassign, hscan', List.filter_cons_of_pos rfl]

/-! ## Groups that start with an assignment -/

/-- After a word and an equals sign, reading fails at a later token or at the end. -/
theorem start_of_assignments {len o₁ o₂ : Nat} {key : Bytes} {ms : List (Nat × Token)} {f : Fault}
    (h : assignments len ((o₁, .word key) :: (o₂, .assign) :: ms) = .error f) :
    ∃ m ∈ places len ms, f.start = m.1 := by
  obtain ⟨i, m, e, hm, hi, rfl⟩ := isFirstImpossible_of_assignments h
  -- Both tokens are possible, so the impossible one is neither of them.
  have hviable : ∀ {xs}, xs <+: [some (.word key), some .assign] → IsViable xs := fun hxs =>
    isViable_of_assigns (.bare key []) (hxs.trans (by simp))
  cases i with
  | zero => exact absurd (hviable (by simp [places])) hi.2
  | succ i =>
    cases i with
    | zero => exact absurd (hviable (by simp [places])) hi.2
    | succ i => exact ⟨m, List.mem_of_getElem? hm, rfl⟩

/-- No token of a group, and neither its end, is before the first of the tokens. -/
theorem le_of_mem_places {len off : Nat} {ks : List Token} {m : Nat × Option Token}
    (hlen : off ≤ len) (hm : m ∈ places len ((Token.locate off ks).filter (!·.2.isGap))) :
    off ≤ m.1 := by
  rcases List.mem_append.1 hm with hm | hm
  · obtain ⟨x, hx, rfl⟩ := List.mem_map.1 hm
    exact Token.le_of_mem_locate (List.mem_of_mem_filter hx)
  · rw [List.mem_singleton.1 hm]
    exact hlen

/-- If the first tokens are a word and an equals sign, reading fails only after the latter. -/
theorem length_lt_start_of_parse {key : Bytes} {pre ks : List Token} {f : Fault}
    (hks : (Token.scan t).1 = pre ++ .assign :: ks) (hkey : pre.filter (!·.isGap) = [.word key])
    (h : parse t = .error f) : (pre.flatMap Token.text).length < f.start := by
  by_cases hleft : (Token.scan t).2 = []
  · rw [← Token.map_snd_marked, List.map_eq_singleton_iff] at hkey
    obtain ⟨⟨o, _⟩, hmarked, rfl⟩ := hkey
    rw [parse_of_scan (Prod.ext hks hleft), Token.marked_append, hmarked, Token.locate,
      List.filter_cons_of_pos rfl] at h
    obtain ⟨m, hm, hstart⟩ := start_of_assignments h
    have hlen := congrArg List.length (Token.flatMap_text_scan t)
    rw [hks, List.flatMap_append, List.flatMap_cons, List.append_assoc, List.append_assoc,
      List.length_append, List.length_append, show Token.assign.text.length = 1 from rfl] at hlen
    have hle : (pre.flatMap Token.text).length + 1 ≤ t.length := by omega
    rw [hstart]
    exact le_of_mem_places hle hm
  · rw [parse_of_scan_left rfl hleft] at h
    cases h
    rw [hks, List.flatMap_append, List.flatMap_cons, List.length_append, List.length_append]
    exact Nat.lt_add_of_pos_right (Nat.add_pos_left (by decide) _)

theorem parse_of_startsBinding (h : startsBinding t) :
    ∃ s r, t = s ++ Byte.eq :: r ∧ Byte.eq ∉ s ∧
      ((∃ as, parse t = .ok as ∧ as ≠ []) ∨ ∃ f, parse t = .error f ∧ s.length < f.start) := by
  obtain ⟨key, gs, gs', ks, hscan, hgs, hkey, hgs'⟩ := exists_tokens_of_startsBinding h
  have hks : (Token.scan t).1 = (gs ++ .word key :: gs') ++ .assign :: ks := by
    rw [hscan, List.append_assoc, List.cons_append]
  have hpre : (gs ++ .word key :: gs').filter (!·.isGap) = [.word key] := by
    rw [List.filter_append, List.filter_cons_of_pos rfl,
      List.filter_eq_nil_iff.2 fun k hk => by simp [(hgs k hk).2],
      List.filter_eq_nil_iff.2 fun k hk => by simp [(hgs' k hk).2], List.nil_append]
  have ht := Token.flatMap_text_scan t
  rw [hks, List.flatMap_append, List.flatMap_cons, List.append_assoc, List.append_assoc] at ht
  refine ⟨_, ks.flatMap Token.text ++ (Token.scan t).2, ht.symm, ?_, ?_⟩
  · -- The text before the equals sign is a word and white space.
    rw [List.flatMap_append, List.flatMap_cons, List.mem_append, List.mem_append]
    rintro (hmem | hmem | hmem)
    · exact absurd (Token.isGapByte_of_mem_text hgs _ hmem) (by decide)
    · exact absurd (hkey.2 _ hmem) (by decide)
    · exact absurd (Token.isGapByte_of_mem_text hgs' _ hmem) (by decide)
  · cases hparse : parse t with
    | ok as => exact .inl ⟨as, rfl, ne_nil_of_startsBinding h hparse⟩
    | error f => exact .inr ⟨f, rfl, length_lt_start_of_parse hks hpre hparse⟩

/-! ## All other groups -/

/-- Tokens that do not start with an assignment are rejected at the first or the second of them, or
    at the end if there is just a word. -/
theorem assignments_of_ne (len : Nat) {ms : List (Nat × Token)}
    (hms : ∀ o₁ key o₂ ms', ms ≠ (o₁, .word key) :: (o₂, .assign) :: ms') :
    ms = [] ∨
      (∃ o k e, (ms[0]? = some (o, k) ∨ ms[1]? = some (o, k)) ∧
        assignments len ms = .error ⟨o, o + 1, .unexpectedToken k.text e⟩) ∨
      ∃ o key e, ms = [(o, .word key)] ∧
        assignments len ms = .error ⟨len, len + 1, .unexpectedToken "<EOF>" e⟩ := by
  fun_cases assignments len ms with
  | case1 => exact .inl rfl
  | case2 => exact absurd rfl (hms _ _ _ _)
  | case3 => exact absurd rfl (hms _ _ _ _)
  | case4 => exact absurd rfl (hms _ _ _ _)
  | case5 o key ms =>
    cases ms with
    | nil => exact .inr (.inr ⟨o, key, .assignment, rfl, rfl⟩)
    | cons m ms => exact .inr (.inl ⟨m.1, m.2, .assignment, .inr rfl, rfl⟩)
  | case6 _ hnil =>
    cases ms with
    | nil => exact absurd rfl hnil
    | cons m ms => exact .inr (.inl ⟨m.1, m.2, .unsaid, .inl rfl, rfl⟩)

theorem marked_ne_of_not_startsBinding (h : startsBinding t = false) {o₁ o₂ : Nat} {key : Bytes}
    {ms : List (Nat × Token)} :
    Token.marked (Token.scan t).1 ≠ (o₁, .word key) :: (o₂, .assign) :: ms := by
  intro hms
  have hks := congrArg (List.map Prod.snd) hms
  rw [Token.map_snd_marked] at hks
  exact absurd (startsBinding_iff.2 ⟨key, ms.map Prod.snd, hks⟩) (by simp [h])

/-- Nothing is assigned exactly by white space. -/
theorem parse_eq_ok_nil_iff : parse t = .ok [] ↔ ∀ b ∈ t, isGapByte b := by
  rw [parse_eq_ok_iff, assignsAll_nil_iff]
  constructor
  · rintro ⟨hleft, hks⟩
    rw [← Token.flatMap_text_scan t, hleft, List.append_nil]
    refine Token.isGapByte_of_mem_text fun k hk => ⟨(Token.cut_scan t).wellFormed k hk, ?_⟩
    simpa using List.filter_eq_nil_iff.1 hks k hk
  · intro ht
    have hend : Token.scan [] = ([], []) := Token.scan_of_next?_none rfl
    cases t with
    | nil =>
      rw [hend]
      exact ⟨rfl, rfl⟩
    | cons b t =>
      have hwf : (Token.gap (b :: t)).WellFormed := ⟨List.cons_ne_nil b t, ht⟩
      have hstop : (Token.gap (b :: t)).StopsAt [] := by simp [Token.StopsAt]
      have hscan := Token.scan_append hwf hstop
      rw [Token.text, List.append_nil, hend] at hscan
      rw [hscan]
      exact ⟨rfl, rfl⟩

theorem parse_of_not_startsBinding (h : startsBinding t = false) :
    parse t = .ok [] ∧ (∀ b ∈ t, isGapByte b) ∨
      (∃ off, parse t = .error ⟨off, off + 1, .invalidInput (Token.scan t).2⟩) ∨
      (∃ o k e, ((Token.marked (Token.scan t).1)[0]? = some (o, k) ∨
          (Token.marked (Token.scan t).1)[1]? = some (o, k)) ∧
        parse t = .error ⟨o, o + 1, .unexpectedToken k.text e⟩) ∨
      ∃ o key e, Token.marked (Token.scan t).1 = [(o, .word key)] ∧
        parse t = .error ⟨t.length, t.length + 1, .unexpectedToken "<EOF>" e⟩ := by
  by_cases hleft : (Token.scan t).2 = []
  · have hparse := parse_of_scan (Prod.ext rfl hleft)
    rw [hparse]
    rcases assignments_of_ne t.length fun _ _ _ _ => marked_ne_of_not_startsBinding h with
      hnil | hrest
    · have hok : parse t = .ok [] := by
        rw [hparse]
        exact congrArg _ hnil
      exact .inl ⟨hparse.symm.trans hok, parse_eq_ok_nil_iff.1 hok⟩
    · exact .inr (.inr hrest)
  · exact .inr (.inl ⟨_, parse_of_scan_left rfl hleft⟩)

theorem problem_of_parse {f : Fault} (h : parse t = .error f) : f.problem ≠ .repeatedBindings := by
  by_cases hleft : (Token.scan t).2 = []
  · rw [parse_of_scan (Prod.ext rfl hleft)] at h
    obtain ⟨_, _, _, -, -, rfl⟩ := isFirstImpossible_of_assignments h
    exact Problem.noConfusion
  · rw [parse_of_scan_left rfl hleft] at h
    cases h
    exact Problem.noConfusion

end Attribute

/-! ## Headers while they are read -/

/-- The group is in braces and starts with an assignment. -/
def Group.HoldsBindings (g : Group) : Prop :=
  g.bracket = .curly ∧ Attribute.startsBinding g.inner

namespace Element

/-- The groups of the header `t` that were accepted so far, the element so far, and what is left. -/
inductive Reading (t : Bytes) : List Group → Element → Bytes → Prop
  /-- The tag and the shorthands were read. -/
  | start {el₀ el : Element} {rest₀ rest : Bytes} (htag : readTag t = .ok (el₀, rest₀))
      (hshort : readShorthands t.length el₀ rest₀ = .ok (el, rest))
      (hsigil : danglingSigil? rest = none) : Reading t [] el rest
  /-- One more group was accepted. -/
  | accept {gs : List Group} {el el' : Element} {g : Group} {rest : Bytes}
      (h : Reading t gs el (g.text ++ rest)) (hinner : g.bracket.Balanced g.inner)
      (hadd : addGroup (t.length - (g.text ++ rest).length) (t.length - rest.length) el g =
        .ok el') : Reading t (gs ++ [g]) el' rest

variable {t rest : Bytes} {gs gs' : List Group} {el el' : Element} {g : Group}

/-- What is read after the groups that were accepted decides what the header denotes. -/
theorem parse_of_reading (h : Reading t gs el rest) :
    parse t = (readGroups t.length el rest >>= fun r =>
      readContent t.length r.2 >>= fun content => .ok { r.1 with content }) := by
  induction h with
  | start htag hshort hsigil =>
    simp only [parse, htag, hshort, hsigil, bind, Except.bind, pure, Except.pure]
  | accept _ hinner hadd ih =>
    rw [ih, readGroups_text_append hinner, hadd]
    rfl

/-- There are bindings exactly if a group of bindings was accepted. -/
theorem bindings_ne_nil_iff_of_reading (h : Reading t gs el rest) :
    el.bindings ≠ [] ↔ ∃ g ∈ gs, g.HoldsBindings := by
  induction h with
  | start htag hshort _ =>
    obtain ⟨tag, -, -, rfl⟩ := readTag_eq_ok_iff.1 htag
    obtain ⟨ss, -, -, -, rfl⟩ := exists_of_readShorthands hshort
    simp [withShorthands, bare]
  | @accept gs el _ g _ _ _ hadd ih =>
    have hsplit : (∃ g' ∈ gs ++ [g], g'.HoldsBindings) ↔ el.bindings ≠ [] ∨ g.HoldsBindings := by
      simp only [ih, List.mem_append, List.mem_singleton, or_and_right, exists_or, exists_eq_left]
    rw [hsplit]
    cases (addGroup_eq_ok_iff _ _).1 hadd with
    | attributes _ => simp [Group.HoldsBindings]
    | bindings _ _ hstart hparse =>
      simp [Group.HoldsBindings, hstart, Attribute.ne_nil_of_startsBinding hstart hparse]
    | helper hstart _ => simp [Group.HoldsBindings, hstart]

/-- Another group of bindings is rejected as such exactly if one was accepted. -/
theorem addGroup_repeated_iff (h : Reading t gs el rest) (hg : g.HoldsBindings) (start stop : Nat) :
    addGroup start stop el g = .error ⟨start, stop, .repeatedBindings⟩ ↔
      ∃ g' ∈ gs, g'.HoldsBindings := by
  obtain ⟨k, inner⟩ := g
  obtain ⟨rfl, hstart⟩ := hg
  rw [← bindings_ne_nil_iff_of_reading h]
  change addBraces start stop el inner = _ ↔ _
  rw [addBraces, if_pos hstart]
  constructor
  · intro hadd hnil
    rw [if_neg (by simp [hnil])] at hadd
    split at hadd
    · cases hadd
    · rcases bind_eq_error_iff.1 hadd with hparse | ⟨_, -, hparse⟩
      · obtain ⟨f, hf, hshift⟩ := mapError_eq_error_iff.1 hparse
        exact Attribute.problem_of_parse hf (congrArg Fault.problem hshift)
      · cases hparse
  · intro hne
    rw [if_pos (by simpa using hne)]

/-- The groups that are added one after the other are accepted one after the other. -/
theorem Reading.addsAll (h : Reading t gs el (Group.textOfList gs' ++ rest))
    (hgs : ∀ g ∈ gs', g.bracket.Balanced g.inner) (hadds : AddsAll el gs' el') :
    Reading t (gs ++ gs') el' rest := by
  induction hadds generalizing gs with
  | nil => rwa [List.append_nil]
  | @cons _ _ _ g gs' hg _ ih =>
    obtain ⟨hinner, hgs⟩ := List.forall_mem_cons.1 hgs
    rw [Group.textOfList_cons, List.append_assoc] at h
    rw [List.append_cons]
    exact ih (.accept h hinner ((addGroup_eq_ok_iff _ _).2 hg)) hgs

/-- All groups of a header that denotes an element were accepted. -/
theorem exists_reading_of_parse (h : parse t = .ok el) :
    ∃ gs el' rest, Reading t gs el' rest ∧ (∀ k : Bracket, rest.head? ≠ some k.opening) ∧
      el = { el' with content := el.content } := by
  obtain ⟨_, _, _, _, el', rest, _, htag, hshort, hsigil, hgroups, -, rfl⟩ :=
    parse_eq_ok_iff_steps.1 h
  obtain ⟨⟨gs, rfl, hgs, hadds⟩, hrest⟩ := readGroups_eq_ok_iff.1 hgroups
  exact ⟨gs, el', rest, (Reading.start htag hshort hsigil).addsAll hgs hadds, hrest, rfl⟩

/-- Looking at the first tokens of a group agrees with reading all of it.

    If a group starts like an assignment, whatever follows the equals sign, it holds an attribute,
    or reading it fails after the first equals sign. Any other group holds no attribute: it is all
    white space, it cannot be cut into tokens, or reading it fails at one of its first two tokens,
    or at its end if it is just a word.

    So at every point where a header is read, there are bindings exactly if a group of bindings was
    accepted, and a further one is rejected exactly then. -/
theorem startsBinding_agrees :
    (∀ t, Attribute.startsBinding t ↔
      ∃ g key g' r, t = g ++ (key ++ (g' ++ Byte.eq :: r)) ∧ (∀ b ∈ g, isGapByte b) ∧
        key.MadeOf isWordByte ∧ ∀ b ∈ g', isGapByte b) ∧
    (∀ t, Attribute.startsBinding t →
      ∃ s r, t = s ++ Byte.eq :: r ∧ Byte.eq ∉ s ∧
        ((∃ as, Attribute.parse t = .ok as ∧ as ≠ []) ∨
          ∃ f, Attribute.parse t = .error f ∧ s.length < f.start)) ∧
    (∀ t, Attribute.startsBinding t = false →
      Attribute.parse t = .ok [] ∧ (∀ b ∈ t, isGapByte b) ∨
      (∃ off, Attribute.parse t = .error ⟨off, off + 1, .invalidInput (Token.scan t).2⟩) ∨
      (∃ o k e, ((Token.marked (Token.scan t).1)[0]? = some (o, k) ∨
          (Token.marked (Token.scan t).1)[1]? = some (o, k)) ∧
        Attribute.parse t = .error ⟨o, o + 1, .unexpectedToken k.text e⟩) ∨
      ∃ o key e, Token.marked (Token.scan t).1 = [(o, .word key)] ∧
        Attribute.parse t = .error ⟨t.length, t.length + 1, .unexpectedToken "<EOF>" e⟩) ∧
    (∀ t gs el rest, Reading t gs el rest → (el.bindings ≠ [] ↔ ∃ g ∈ gs, g.HoldsBindings)) ∧
    (∀ t gs el g rest, Reading t gs el (g.text ++ rest) → g.bracket.Balanced g.inner →
      g.HoldsBindings →
      let start := t.length - (g.text ++ rest).length
      let stop := t.length - rest.length
      (addGroup start stop el g = .error ⟨start, stop, .repeatedBindings⟩ ↔
        ∃ g' ∈ gs, g'.HoldsBindings) ∧
      ((∃ g' ∈ gs, g'.HoldsBindings) → parse t = .error ⟨start, stop, .repeatedBindings⟩)) ∧
    ∀ t el, parse t = .ok el →
      ∃ gs el' rest, Reading t gs el' rest ∧ (∀ k : Bracket, rest.head? ≠ some k.opening) ∧
        el = { el' with content := el.content } := by
  refine ⟨fun _ => Attribute.startsBinding_iff_text, fun _ => Attribute.parse_of_startsBinding,
    fun _ => Attribute.parse_of_not_startsBinding,
    fun _ _ _ _ => bindings_ne_nil_iff_of_reading, ?_, fun _ _ => exists_reading_of_parse⟩
  intro t gs el g rest hread hinner hg start stop
  have hiff := addGroup_repeated_iff hread hg start stop
  refine ⟨hiff, fun hrepeated => ?_⟩
  rw [parse_of_reading hread, readGroups_text_append hinner, hiff.2 hrepeated]
  rfl

/-- The second of two groups of bindings is rejected, and the fault is where it is. -/
theorem startsBinding_agrees_repeated :
    Reading "%p{a=b}{c=d}" [⟨.curly, "a=b"⟩] { bare "p" with bindings := [⟨"a", "b", false⟩] }
      "{c=d}" ∧ parse "%p{a=b}{c=d}" = .error ⟨7, 12, .repeatedBindings⟩ := by
  have hbalanced : Bracket.curly.Balanced "a=b" ∧ Bracket.curly.Balanced "c=d" := by
    refine ⟨?_, ?_⟩
    · exact ((Bracket.group_eq_ok_iff (t := "{a=b}") rfl).1
        (by decide +kernel : Bracket.curly.group 0 "{a=b}" = .ok ("a=b", ""))).2
    · exact ((Bracket.group_eq_ok_iff (t := "{c=d}") rfl).1
        (by decide +kernel : Bracket.curly.group 0 "{c=d}" = .ok ("c=d", ""))).2
  have htag : readTag "%p{a=b}{c=d}" =
      .ok (bare "p", (⟨.curly, "a=b"⟩ : Group).text ++ "{c=d}") := by decide +kernel
  have hshort : readShorthands ("%p{a=b}{c=d}" : Bytes).length (bare "p")
      ((⟨.curly, "a=b"⟩ : Group).text ++ "{c=d}") =
      .ok (bare "p", (⟨.curly, "a=b"⟩ : Group).text ++ "{c=d}") := by decide +kernel
  have hstart := Reading.start htag hshort (by decide +kernel)
  have hread : Reading "%p{a=b}{c=d}" ([] ++ [⟨.curly, "a=b"⟩])
      { bare "p" with bindings := [⟨"a", "b", false⟩] } "{c=d}" :=
    .accept hstart hbalanced.1 (by decide +kernel)
  refine ⟨hread, ?_⟩
  have hrest : ("{c=d}" : Bytes) = (⟨.curly, "c=d"⟩ : Group).text ++ [] := by decide +kernel
  rw [hrest] at hread
  have hrepeated := (startsBinding_agrees.2.2.2.2.1 _ _ _ _ _ hread hbalanced.2
    ⟨rfl, by decide +kernel⟩).2 ⟨_, List.mem_singleton_self _, rfl, by decide +kernel⟩
  rw [hrepeated]
  decide +kernel

end Element

end IndentMarkup
