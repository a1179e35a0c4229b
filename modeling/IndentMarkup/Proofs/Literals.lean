import IndentMarkup.Proofs.Header
import IndentMarkup.Proofs.Requoting

/-!
# A literal for every value

There is no value that an attribute cannot have. With its backslashes doubled and a backslash before
its quotes of one kind, every text becomes a literal between two such quotes (`literalOf`). Nothing
in the text can close the literal, and nothing after it can go on with it, so it is one token
wherever it stands, and it denotes the text (`literalOf_denotes`).

The literal is cut off in two ways: as a token of a group, and before that as a quoted part that is
skipped in looking for the end of the group. Both find the same closing quote, so the text may have
brackets in it, and the group that the literal is in is read with the text as a value, of a plain
attribute in parentheses and of a binding in braces.
-/

namespace IndentMarkup

variable {q : UInt8}

/-! ## The literal of a text -/

theorem wellFormed_literalOf (hq : Byte.isQuote q) (v : Bytes) :
    (Token.literal (literalOf q v)).WellFormed := by
  obtain ⟨s, hs, hcloses, -⟩ := closesQuote_literalOf hq v
  exact ⟨q, s ++ [q], hq, hs, hcloses⟩

theorem unquote_literalOf (hq : Byte.isQuote q) (v : Bytes) : unquote (literalOf q v) = v := by
  obtain ⟨s, hs, -, hvalue⟩ := closesQuote_literalOf hq v
  rw [hs, unquote_concat hq, hvalue]

/-! ## Literals in groups -/

theorem Attribute.startsBinding_assignment {key : Bytes} (hkey : key.MadeOf isWordByte)
    (t : Bytes) : startsBinding (key ++ "=" ++ t) := by
  rw [startsBinding_iff, scan_key hkey]
  exact ⟨key, _, rfl⟩

/-- The brackets in a literal do not count. -/
theorem Bracket.balanced_literal {k : Bracket} {lit : Bytes}
    (h : (Token.literal lit).WellFormed) : k.Balanced lit := by
  obtain ⟨q, body, hq, rfl, hbody⟩ := h
  have hskip := Balanced.quoted (k := k) hq (hbody.mono fun _ _ => trivial) .nil
  rwa [List.append_nil] at hskip

/-- An assignment of a literal is balanced if its key is. -/
theorem Bracket.balanced_assignment {k : Bracket} {key lit : Bytes} (hkey : k.Balanced key)
    (hlit : (Token.literal lit).WellFormed) : k.Balanced (key ++ "=" ++ lit) := by
  have hassign : k.Balanced ("=" : Bytes) :=
    .plain rfl (by cases k <;> decide) (by cases k <;> decide) .nil
  exact (hkey.append hassign).append (balanced_literal hlit)

namespace Element

variable {el : Element} {g : Group} {tag : Bytes}

/-- A header of a tag and a group denotes the element with the tag and what the group adds to it. -/
theorem parse_tag_group (htag : tag.MadeOf isTagByte) (hinner : g.bracket.Balanced g.inner)
    (h : Adds (bare tag) g el) : parse (Byte.percent :: (tag ++ g.text)) = .ok el := by
  -- An opening bracket ends the tag, and it is not the sigil of a shorthand.
  have hhead : g.text.head? = some g.bracket.opening := rfl
  have hstop : Header.IsTag g.text (some tag) := by
    refine ⟨htag, fun b hb => ?_⟩
    obtain rfl := Option.some.inj (hhead.symm.trans hb)
    cases g.bracket <;> rfl
  have hsigil : danglingSigil? g.text = none := by
    rw [danglingSigil?_eq_none_iff, hhead]
    refine ⟨?_, fun hhash => absurd hhash ?_⟩ <;> cases g.bracket <;> decide
  have hgroups : g.text = Group.textOfList [g] ++ [] := by simp [Group.textOfList]
  have hcontent : readContent (Byte.percent :: (tag ++ g.text)).length [] = .ok [] :=
    (readContent_of_head_ne (by simp)).trans (Span.parseFrom_ofLiteral Bytes.isLiteral_nil _)
  refine parse_eq_ok_iff_steps.2 ⟨bare tag, g.text, bare tag, g.text, el, [], [],
    readTag_eq_ok_iff.2 ⟨some tag, rfl, hstop, rfl⟩,
    readShorthands_of_not (not_startsShorthand_of_danglingSigil? hsigil), hsigil,
    readGroups_eq_ok_iff.2 ⟨⟨[g], hgroups, List.forall_mem_singleton.2 hinner, .cons h .nil⟩, ?_⟩,
    hcontent, ?_⟩
  · intro k hk
    cases hk
  · cases h <;> rfl

end Element

/-- Every text is the value of a literal, with quotes of either kind. Whatever follows the literal,
    it is one token. After a key it gives the text to an attribute, and what follows it is read on
    its own. In a header the attribute is a plain one, or a binding. -/
theorem literalOf_denotes (hq : Byte.isQuote q) (v : Bytes) :
    (∀ rest, Token.next? (literalOf q v ++ rest) = some (.literal (literalOf q v), rest)) ∧
    unquote (literalOf q v) = v ∧
    ∀ key : Bytes, key.MadeOf isWordByte →
      (∀ rest as, Attribute.parse (key ++ "=" ++ (literalOf q v ++ rest)) = .ok as ↔
        ∃ as', as = ⟨key, v, true⟩ :: as' ∧ Attribute.parse rest = .ok as') ∧
      ∀ tag : Bytes, tag.MadeOf isTagByte →
        (Bracket.round.Balanced key →
          Element.parse (Byte.percent ::
            (tag ++ (⟨.round, key ++ "=" ++ literalOf q v⟩ : Group).text)) =
              .ok { Element.bare tag with attributes := [⟨key, v, true⟩] }) ∧
        (Bracket.curly.Balanced key →
          Element.parse (Byte.percent ::
            (tag ++ (⟨.curly, key ++ "=" ++ literalOf q v⟩ : Group).text)) =
              .ok { Element.bare tag with bindings := [⟨key, v, true⟩] }) := by
  have hlit := wellFormed_literalOf hq v
  have hvalue := unquote_literalOf hq v
  refine ⟨fun rest => Token.next?_append hlit trivial, hvalue, fun key hkey => ?_⟩
  have hparse := Attribute.parse_key_literal hkey hlit
  rw [hvalue] at hparse
  refine ⟨fun rest as => ?_, fun tag htag => ⟨fun hbalanced => ?_, fun hbalanced => ?_⟩⟩
  · rw [Attribute.parse_literal_append hkey hlit, hvalue]
  · exact Element.parse_tag_group htag (Bracket.balanced_assignment hbalanced hlit)
      (.attributes hparse)
  · exact Element.parse_tag_group htag (Bracket.balanced_assignment hbalanced hlit)
      (.bindings rfl rfl (Attribute.startsBinding_assignment hkey _) hparse)

/-- A value in which a backslash is before a quote, with a bracket, and with a backslash at its end,
    before a text that starts with a quote and before another assignment without a space between. -/
theorem literalOf_denotes_escapes :
    literalOf Byte.squote "\\')\\" = "'\\\\\\')\\\\'" ∧
    Token.next? (literalOf Byte.squote "\\')\\" ++ "'") =
      some (Token.literal (literalOf Byte.squote "\\')\\"), ("'" : Bytes)) ∧
    unquote (literalOf Byte.squote "\\')\\") = "\\')\\" ∧
    Attribute.parse ("dir" ++ "=" ++ (literalOf Byte.squote "\\')\\" ++ "a=b")) =
      .ok [⟨"dir", "\\')\\", true⟩, ⟨"a", "b", false⟩] ∧
    Element.parse "%p(dir='\\\\\\')\\\\')" =
      .ok { Element.bare "p" with attributes := [⟨"dir", "\\')\\", true⟩] } := by
  obtain ⟨hnext, hvalue, hkey⟩ := literalOf_denotes (q := Byte.squote) rfl "\\')\\"
  obtain ⟨hparse, htag⟩ := hkey "dir" (by decide +kernel)
  have hbalanced : Bracket.round.Balanced "dir" :=
    ((Bracket.group_eq_ok_iff (t := "(dir)") rfl).1
      (by decide +kernel : Bracket.round.group 0 "(dir)" = .ok ("dir", ""))).2
  have hrest : Attribute.parse "a=b" = .ok [⟨"a", "b", false⟩] := by decide +kernel
  have htext : Byte.percent :: (("p" : Bytes) ++
      (⟨.round, "dir" ++ "=" ++ literalOf Byte.squote "\\')\\"⟩ : Group).text) =
      "%p(dir='\\\\\\')\\\\')" := by decide +kernel
  refine ⟨by decide +kernel, hnext _, hvalue, (hparse _ _).2 ⟨_, rfl, hrest⟩, ?_⟩
  rw [← htext]
  exact (htag "p" (by decide +kernel)).1 hbalanced

end IndentMarkup
