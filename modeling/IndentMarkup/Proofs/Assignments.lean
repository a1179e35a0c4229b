import IndentMarkup.Proofs.Lexing

/-!
# What attribute groups say

The grammar of an attribute group is a relation between attributes and tokens: an attribute is
assigned by three of them (`Attribute.Assigns`), and the attributes of a group by the tokens of all
its assignments in a row (`Attribute.AssignsAll`). White space is left out.

Reading accepts exactly what the grammar does, and where it does not, it points at the first token
that is *impossible* (`Attribute.IsFirstImpossible`): the tokens before it could still be those of
some group, but not together with it (`Attribute.parse_iff_assignsAll`). The end of the group counts
as one more token here, so that a group that is cut short is impossible at its end.
-/

namespace IndentMarkup.Attribute

/-! ## The grammar -/

/-- The tokens that assign an attribute: its key, an equals sign, and its value, which is quoted
    or a bare word. -/
inductive Assigns : Attribute → List Token → Prop
  /-- The value is what a quoted literal denotes. -/
  | quoted (key text : Bytes) :
      Assigns ⟨key, unquote text, true⟩ [.word key, .assign, .literal text]
  /-- The value is a word. -/
  | bare (key value : Bytes) : Assigns ⟨key, value, false⟩ [.word key, .assign, .word value]

/-- The tokens that assign attributes one after the other. -/
def AssignsAll (as : List Attribute) (ks : List Token) : Prop :=
  ∃ parts, List.Forall₂ Assigns as parts ∧ parts.flatten = ks

variable {a : Attribute} {as : List Attribute} {part ks : List Token}

theorem assignsAll_nil_iff : AssignsAll [] ks ↔ ks = [] := by
  simp [AssignsAll, eq_comm]

theorem assignsAll_cons_iff :
    AssignsAll (a :: as) ks ↔
      ∃ part ks', Assigns a part ∧ AssignsAll as ks' ∧ part ++ ks' = ks := by
  constructor
  · rintro ⟨parts, hparts, rfl⟩
    cases hparts with
    | cons ha has => exact ⟨_, _, ha, ⟨_, has, rfl⟩, rfl⟩
  · rintro ⟨part, ks', ha, ⟨parts, has, rfl⟩, rfl⟩
    exact ⟨part :: parts, .cons ha has, rfl⟩

theorem assignsAll_of_assignments {len : Nat} {ms : List (Nat × Token)}
    (h : assignments len ms = .ok as) : AssignsAll as (ms.map Prod.snd) := by
  fun_induction assignments len ms generalizing as with
  | case1 =>
    cases h
    exact assignsAll_nil_iff.2 rfl
  | case2 _ key _ _ t ms ih =>
    obtain ⟨as', has, h⟩ := bind_eq_ok_iff.1 h
    cases h
    exact assignsAll_cons_iff.2 ⟨_, _, .quoted key t, ih has, rfl⟩
  | case3 _ key _ _ value ms ih =>
    obtain ⟨as', has, h⟩ := bind_eq_ok_iff.1 h
    cases h
    exact assignsAll_cons_iff.2 ⟨_, _, .bare key value, ih has, rfl⟩
  | case4 => cases h
  | case5 => cases h
  | case6 => cases h

theorem exists_of_map_snd {ms : List (Nat × Token)} {k₁ k₂ k₃ : Token}
    (h : ms.map Prod.snd = [k₁, k₂, k₃] ++ ks) :
    ∃ o₁ o₂ o₃ ms', ms = (o₁, k₁) :: (o₂, k₂) :: (o₃, k₃) :: ms' ∧ ms'.map Prod.snd = ks := by
  obtain ⟨⟨o₁, _⟩, ms₁, rfl, rfl, h₁⟩ := List.map_eq_cons_iff.1 h
  obtain ⟨⟨o₂, _⟩, ms₂, rfl, rfl, h₂⟩ := List.map_eq_cons_iff.1 h₁
  obtain ⟨⟨o₃, _⟩, ms₃, rfl, rfl, h₃⟩ := List.map_eq_cons_iff.1 h₂
  exact ⟨o₁, o₂, o₃, ms₃, rfl, h₃⟩

theorem assignments_of_assignsAll {len : Nat} {ms : List (Nat × Token)}
    (h : AssignsAll as (ms.map Prod.snd)) : assignments len ms = .ok as := by
  induction as generalizing ms with
  | nil =>
    rw [List.map_eq_nil_iff.1 (assignsAll_nil_iff.1 h)]
    rfl
  | cons a as ih =>
    obtain ⟨part, ks', ha, has, heq⟩ := assignsAll_cons_iff.1 h
    cases ha with
    | quoted key t =>
      obtain ⟨o₁, o₂, o₃, ms', rfl, rfl⟩ := exists_of_map_snd heq.symm
      rw [assignments, ih has]
      rfl
    | bare key value =>
      obtain ⟨o₁, o₂, o₃, ms', rfl, rfl⟩ := exists_of_map_snd heq.symm
      rw [assignments, ih has]
      rfl

/-- Reading tokens accepts exactly those that the grammar does. -/
theorem assignments_eq_ok_iff {len : Nat} {ms : List (Nat × Token)} :
    assignments len ms = .ok as ↔ AssignsAll as (ms.map Prod.snd) :=
  ⟨assignsAll_of_assignments, assignments_of_assignsAll⟩

/-! ## Impossible tokens -/

/-- Tokens that the tokens of some group start with, where `none` is the end of the group. -/
def IsViable (xs : List (Option Token)) : Prop :=
  ∃ as ks, AssignsAll as ks ∧ xs <+: ks.map some ++ [none]

/-- The token at `i` cannot be there, and what is before it can. -/
def IsFirstImpossible (xs : List (Option Token)) (i : Nat) : Prop :=
  IsViable (xs.take i) ∧ ¬IsViable (xs.take (i + 1))

variable {x : Option Token} {xs ys : List (Option Token)} {i j : Nat}

theorem IsViable.of_isPrefix (h : IsViable ys) (hxs : xs <+: ys) : IsViable xs := by
  obtain ⟨as, ks, has, hys⟩ := h
  exact ⟨as, ks, has, hxs.trans hys⟩

/-- Nothing is possible after an impossible token, so there is just one that comes first. -/
theorem IsFirstImpossible.unique (hi : IsFirstImpossible xs i) (hj : IsFirstImpossible xs j) :
    i = j := by
  have hle : ∀ {m n}, IsFirstImpossible xs m → IsFirstImpossible xs n → n ≤ m := by
    intro m n hm hn
    by_contra hlt
    exact hm.2 (hn.1.of_isPrefix (List.take_prefix_take_left (by omega)))
  exact Nat.le_antisymm (hle hj hi) (hle hi hj)

theorem isViable_of_assigns (h : Assigns a part) (hxs : xs <+: part.map some) : IsViable xs :=
  ⟨[a], part, assignsAll_cons_iff.2 ⟨part, [], h, assignsAll_nil_iff.2 rfl, List.append_nil _⟩,
    hxs.trans (List.prefix_append _ _)⟩

theorem isViable_nil : IsViable [] := isViable_of_assigns (.bare [] []) List.nil_prefix

/-- A group goes on with the tokens of an assignment, or it ends. -/
theorem IsViable.inv (h : IsViable xs) :
    xs <+: [none] ∨
      ∃ a part ys, Assigns a part ∧ IsViable ys ∧ xs <+: part.map some ++ ys := by
  obtain ⟨as, ks, has, hxs⟩ := h
  cases as with
  | nil =>
    rw [assignsAll_nil_iff.1 has] at hxs
    exact .inl hxs
  | cons a as =>
    obtain ⟨part, ks', ha, has', rfl⟩ := assignsAll_cons_iff.1 has
    refine .inr ⟨a, part, ks'.map some ++ [none], ha, ⟨as, ks', has', List.prefix_rfl⟩, ?_⟩
    rwa [← List.append_assoc, ← List.map_append]

theorem isViable_append_iff (h : Assigns a part) :
    IsViable (part.map some ++ xs) ↔ IsViable xs := by
  constructor
  · intro hxs
    rcases hxs.inv with hend | ⟨a', part', ys, ha', hys, hxs⟩
    · cases h <;> simp at hend
    · -- All assignments have three tokens, so what follows the first one is the same.
      refine hys.of_isPrefix ?_
      cases h <;> cases ha' <;> simp_all [List.cons_prefix_cons]
  · rintro ⟨as, ks, has, hxs⟩
    refine ⟨a :: as, part ++ ks, assignsAll_cons_iff.2 ⟨part, ks, h, has, rfl⟩, ?_⟩
    rw [List.map_append, List.append_assoc]
    exact (List.prefix_append_right_inj _).2 hxs

theorem not_isViable_start (hx : ∀ k, x ≠ some (.word k)) (hend : x ≠ none) : ¬IsViable [x] := by
  intro h
  rcases h.inv with h | ⟨a, part, ys, ha, -, h⟩
  · exact hend (by simpa using h)
  · cases ha <;> exact hx _ (List.cons_prefix_cons.1 h).1

theorem not_isViable_assign {key : Bytes} (hx : x ≠ some .assign) :
    ¬IsViable [some (.word key), x] := by
  intro h
  rcases h.inv with h | ⟨a, part, ys, ha, -, h⟩
  · simp at h
  · cases ha <;> exact hx (List.cons_prefix_cons.1 (List.cons_prefix_cons.1 h).2).1

theorem not_isViable_value {key : Bytes} (hx : ∀ t, x ≠ some (.literal t) ∧ x ≠ some (.word t)) :
    ¬IsViable [some (.word key), some .assign, x] := by
  intro h
  rcases h.inv with h | ⟨a, part, ys, ha, -, h⟩
  · simp at h
  · cases ha with
    | quoted _ t =>
      have htail := (List.cons_prefix_cons.1 (List.cons_prefix_cons.1 h).2).2
      exact (hx t).1 (List.cons_prefix_cons.1 htail).1
    | bare _ t =>
      have htail := (List.cons_prefix_cons.1 (List.cons_prefix_cons.1 h).2).2
      exact (hx t).2 (List.cons_prefix_cons.1 htail).1

/-- The tokens of a group of length `len` and its end, with their offsets. -/
def places (len : Nat) (ms : List (Nat × Token)) : List (Nat × Option Token) :=
  ms.map (fun m => (m.1, some m.2)) ++ [(len, none)]

/-- A token, or the end of a group, as a message names it. -/
def shown : Option Token → Bytes
  | some k => k.text
  | none => "<EOF>"

theorem places_append (len : Nat) (pre ms : List (Nat × Token)) :
    places len (pre ++ ms) = pre.map (fun m => (m.1, some m.2)) ++ places len ms := by
  rw [places, places, List.map_append, List.append_assoc]

theorem eq_cons_of_places {len o : Nat} {k : Token} {ms : List (Nat × Token)}
    {ps : List (Nat × Option Token)} (h : places len ms = (o, some k) :: ps) :
    ∃ ms', ms = (o, k) :: ms' := by
  cases ms with
  | nil => cases h
  | cons m ms =>
    cases h
    exact ⟨ms, rfl⟩

/-- A token that is not expected is the first impossible one, if all before it are possible. -/
theorem isFirstImpossible_unexpected {len : Nat} (pre : List (Nat × Token))
    {ms : List (Nat × Token)} (hpre : IsViable (pre.map (some ·.2)))
    (hms : ∀ o x ps, places len ms = (o, x) :: ps → ¬IsViable (pre.map (some ·.2) ++ [x]))
    (e : Expectation) :
    ∃ i m e', (places len (pre ++ ms))[i]? = some m ∧
      IsFirstImpossible ((places len (pre ++ ms)).map Prod.snd) i ∧
      unexpected len e ms = ⟨m.1, m.1 + 1, .unexpectedToken (shown m.2) e'⟩ := by
  obtain ⟨⟨o, x⟩, ps, hps, hf⟩ : ∃ m ps, places len ms = m :: ps ∧
      unexpected len e ms = ⟨m.1, m.1 + 1, .unexpectedToken (shown m.2) e⟩ := by
    cases ms with
    | nil => exact ⟨_, [], rfl, rfl⟩
    | cons m ms => exact ⟨_, places len ms, rfl, rfl⟩
  have hlen : (pre.map (some ·.2)).length = pre.length := List.length_map _
  have hmap : (places len (pre ++ ms)).map Prod.snd =
      pre.map (some ·.2) ++ x :: ps.map Prod.snd := by
    rw [places_append, hps, List.map_append, List.map_map]
    rfl
  refine ⟨pre.length, (o, x), e, ?_, ?_, hf⟩
  · rw [places_append, hps, List.getElem?_append_right (by simp)]
    simp
  · rw [IsFirstImpossible, hmap, List.take_left' hlen, List.take_append, hlen]
    refine ⟨hpre, ?_⟩
    rw [List.take_of_length_le (by omega), Nat.add_sub_cancel_left]
    exact hms o x ps hps

/-- Where reading stops, there is the first impossible token. -/
theorem isFirstImpossible_of_assignments {len : Nat} {ms : List (Nat × Token)} {f : Fault}
    (h : assignments len ms = .error f) :
    ∃ i m e, (places len ms)[i]? = some m ∧
      IsFirstImpossible ((places len ms).map Prod.snd) i ∧
      f = ⟨m.1, m.1 + 1, .unexpectedToken (shown m.2) e⟩ := by
  fun_induction assignments len ms with
  | case1 => cases h
  | case2 _ key _ _ t ms ih =>
    rcases bind_eq_error_iff.1 h with h | ⟨_, -, h⟩
    · obtain ⟨i, m, e, hm, hi, rfl⟩ := ih h
      refine ⟨i + 3, m, e, hm, ?_, rfl⟩
      exact hi.imp (isViable_append_iff (.quoted key t)).2
        (mt (isViable_append_iff (.quoted key t)).1)
    · cases h
  | case3 _ key _ _ value ms ih =>
    rcases bind_eq_error_iff.1 h with h | ⟨_, -, h⟩
    · obtain ⟨i, m, e, hm, hi, rfl⟩ := ih h
      refine ⟨i + 3, m, e, hm, ?_, rfl⟩
      exact hi.imp (isViable_append_iff (.bare key value)).2
        (mt (isViable_append_iff (.bare key value)).1)
    · cases h
  | case4 o₁ key o₂ ms hlit hword =>
    cases h
    refine isFirstImpossible_unexpected [(o₁, .word key), (o₂, .assign)]
      (isViable_of_assigns (.bare key []) (by simp)) (fun o x ps hps => ?_) .value
    refine not_isViable_value fun t => ⟨?_, ?_⟩
    · rintro rfl
      obtain ⟨ms', hms⟩ := eq_cons_of_places hps
      exact hlit o t ms' hms
    · rintro rfl
      obtain ⟨ms', hms⟩ := eq_cons_of_places hps
      exact hword o t ms' hms
  | case5 o₁ key ms _ _ hassign =>
    cases h
    refine isFirstImpossible_unexpected [(o₁, .word key)]
      (isViable_of_assigns (.bare key []) (by simp)) (fun o x ps hps => ?_) .assignment
    refine not_isViable_assign ?_
    rintro rfl
    obtain ⟨ms', hms⟩ := eq_cons_of_places hps
    exact hassign o ms' hms
  | case6 ms hnil _ _ _ hword =>
    cases h
    refine isFirstImpossible_unexpected [] isViable_nil (fun o x ps hps => ?_) .unsaid
    refine not_isViable_start ?_ ?_
    · rintro t rfl
      obtain ⟨ms', hms⟩ := eq_cons_of_places hps
      exact hword o t ms' hms
    · rintro rfl
      cases ms with
      | nil => exact hnil rfl
      | cons m ms => cases hps

/-! ## Whole groups -/

variable {t : Bytes}

theorem parse_of_scan (h : Token.scan t = (ks, [])) :
    parse t = assignments t.length (Token.marked ks) := by
  rw [parse, h]
  rfl

theorem parse_of_scan_left {left : Bytes} (h : Token.scan t = (ks, left)) (hleft : left ≠ []) :
    parse t = .error ⟨(ks.flatMap Token.text).length, (ks.flatMap Token.text).length + 1,
      .invalidInput left⟩ := by
  have hlen := congrArg List.length (Token.flatMap_text_scan t)
  rw [h, List.length_append] at hlen
  obtain ⟨b, left, rfl⟩ := List.exists_cons_of_ne_nil hleft
  simp only [parse, h, ← hlen, Nat.add_sub_cancel]

theorem parse_eq_ok_iff {as : List Attribute} :
    parse t = .ok as ↔
      (Token.scan t).2 = [] ∧ AssignsAll as ((Token.scan t).1.filter (!·.isGap)) := by
  by_cases hleft : (Token.scan t).2 = []
  · rw [parse_of_scan (Prod.ext rfl hleft), assignments_eq_ok_iff, Token.map_snd_marked]
    exact (and_iff_right hleft).symm
  · rw [parse_of_scan_left rfl hleft]
    refine ⟨fun h => ?_, fun h => absurd h.1 hleft⟩
    cases h

theorem startsBinding_iff :
    startsBinding t ↔
      ∃ key ks, (Token.scan t).1.filter (!·.isGap) = .word key :: .assign :: ks := by
  rw [startsBinding]
  split
  · rename_i key ks hks
    exact ⟨fun _ => ⟨key, ks, hks⟩, fun _ => rfl⟩
  · rename_i hne
    refine ⟨fun h => absurd h Bool.false_ne_true, ?_⟩
    rintro ⟨key, ks, hks⟩
    exact absurd hks (hne key ks)

/-- A group that starts with an assignment has an attribute in it. -/
theorem ne_nil_of_startsBinding {as : List Attribute} (h : startsBinding t)
    (hparse : parse t = .ok as) : as ≠ [] := by
  rintro rfl
  obtain ⟨key, ks, hks⟩ := startsBinding_iff.1 h
  have hnil := assignsAll_nil_iff.1 (parse_eq_ok_iff.1 hparse).2
  cases hks.symm.trans hnil

/-- A group is read exactly as the grammar says. There is one way to cut it into tokens. If that
    stops before the end, the place where it stops is reported, whatever the tokens before it are.
    Otherwise the attributes are those that the tokens assign, white space left out, and if they
    assign none, the first impossible token is reported. -/
theorem parse_iff_assignsAll (t : Bytes) :
    ∃ ks left, Token.Cut t ks left ∧
      (∀ ks' left', Token.Cut t ks' left' → ks' = ks ∧ left' = left) ∧
      (left ≠ [] →
        parse t = .error ⟨(ks.flatMap Token.text).length, (ks.flatMap Token.text).length + 1,
          .invalidInput left⟩) ∧
      (left = [] →
        (∀ as, parse t = .ok as ↔ AssignsAll as (ks.filter (!·.isGap))) ∧
        ((∀ as, ¬AssignsAll as (ks.filter (!·.isGap))) →
          ∃ i m e, (places t.length (Token.marked ks))[i]? = some m ∧
            parse t = .error ⟨m.1, m.1 + 1, .unexpectedToken (shown m.2) e⟩ ∧
            ∀ j, IsFirstImpossible ((places t.length (Token.marked ks)).map Prod.snd) j ↔
              j = i)) := by
  have hcut := Token.cut_scan t
  refine ⟨_, _, hcut, fun ks' left' h => ?_, parse_of_scan_left rfl, fun hleft => ?_⟩
  · exact Prod.mk.inj (h.scan_eq.symm.trans hcut.scan_eq)
  · have hparse := parse_of_scan (Prod.ext rfl hleft)
    have hok : ∀ as, parse t = .ok as ↔ AssignsAll as ((Token.scan t).1.filter (!·.isGap)) :=
      fun as => parse_eq_ok_iff.trans (and_iff_right hleft)
    refine ⟨hok, fun hnone => ?_⟩
    cases hp : parse t with
    | ok as => exact absurd ((hok as).1 hp) (hnone as)
    | error f =>
      obtain ⟨i, m, e, hm, hi, rfl⟩ := isFirstImpossible_of_assignments (hparse.symm.trans hp)
      refine ⟨i, m, e, hm, rfl, fun j => ⟨fun hj => hj.unique hi, ?_⟩⟩
      rintro rfl
      exact hi

end IndentMarkup.Attribute
