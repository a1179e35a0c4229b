import IndentMarkup.Proofs.Brackets
import Mathlib.Order.Bounds.Defs

/-!
# The bracket that closes a group, by counting

The bracket that closes a group can be found without pairing the brackets in it. Of all closing
brackets outside of quoted parts, it is the first one up to which as many brackets are closed as
opened, those in quoted parts not counted (`Bracket.Matches`). A text at whose beginning there is an
opening bracket starts with a group exactly if there is such a bracket, and what follows it in the
text does not matter (`Bracket.groupAt_iff_matches`).

The scanner counts while it goes through the text. At every place where it stands outside of quoted
parts, the closing brackets that it may still find are those of the rest of the text, with the
brackets that are open there counted as well (`Bracket.ClosesAt`).
-/

namespace IndentMarkup

/-! ## Texts without their quoted parts -/

/-- A quoted part is closed at one place only. -/
theorem ClosesQuote.append_inj {p : UInt8 → Prop} {q : UInt8} {s s' t t' : Bytes}
    (hq : q ≠ Byte.backslash) (h : ClosesQuote p q s) (h' : ClosesQuote p q s')
    (heq : s ++ t = s' ++ t') : s = s' ∧ t = t' := by
  induction h generalizing s' with
  | close =>
    cases h' with
    | close => exact ⟨rfl, (List.cons.inj heq).2⟩
    | escape => exact absurd (List.cons.inj heq).1 hq
    | plain hne => exact absurd (List.cons.inj heq).1.symm hne
  | escape _ _ ih =>
    cases h' with
    | close => exact absurd (List.cons.inj heq).1.symm hq
    | escape _ h' =>
      simp only [List.cons_append, List.cons.injEq, true_and] at heq
      obtain ⟨rfl, heq⟩ := heq
      obtain ⟨rfl, rfl⟩ := ih h' heq
      exact ⟨rfl, rfl⟩
    | plain _ hb => exact absurd (List.cons.inj heq).1.symm hb
  | plain hne hb _ ih =>
    cases h' with
    | close => exact absurd (List.cons.inj heq).1 hne
    | escape => exact absurd (List.cons.inj heq).1 hb
    | plain _ _ h' =>
      simp only [List.cons_append, List.cons.injEq] at heq
      obtain ⟨rfl, heq⟩ := heq
      obtain ⟨rfl, rfl⟩ := ih h' heq
      exact ⟨rfl, rfl⟩

/-- A text is `u` without its quoted parts. Each of these goes from a quote up to the next quote of
    the same kind that no backslash takes with it, and the text does not end inside of one. -/
inductive Unquoted : Bytes → Bytes → Prop
  /-- There is nothing. -/
  | nil : Unquoted [] []
  /-- A byte that is no quote. -/
  | plain {b : UInt8} {s u : Bytes} (hquote : Byte.isQuote b = false) (h : Unquoted s u) :
      Unquoted (b :: s) (b :: u)
  /-- A quoted part. -/
  | quoted {q : UInt8} {body s u : Bytes} (hquote : Byte.isQuote q)
      (hbody : ClosesQuote (fun _ => True) q body) (h : Unquoted s u) :
      Unquoted (q :: (body ++ s)) u

namespace Bracket

variable {k : Bracket} {depth : Int} {b q : UInt8} {n : Nat} {t body : Bytes}

/-! ## Brackets that may close a group -/

/-- The byte at the offset `n` of a text, before which `depth` brackets were opened and not closed,
    is a closing bracket outside of quoted parts, after which no bracket is open. -/
def ClosesAt (k : Bracket) (depth : Int) (t : Bytes) (n : Nat) : Prop :=
  ∃ s u rest, t = s ++ k.closing :: rest ∧ s.length = n ∧ Unquoted s u ∧
    depth + u.count k.opening = u.count k.closing + 1

/-- How many brackets a byte opens. -/
def weight (k : Bracket) (b : UInt8) : Int :=
  if b = k.opening then 1 else if b = k.closing then -1 else 0

theorem count_cons_eq_iff (k : Bracket) (depth : Int) (b : UInt8) (u : Bytes) :
    depth + (b :: u).count k.opening = (b :: u).count k.closing + 1 ↔
      depth + k.weight b + u.count k.opening = u.count k.closing + 1 := by
  have hne := k.opening_ne_closing
  simp only [weight, List.count_cons, beq_iff_eq]
  split_ifs with hopening hclosing
  · exact absurd (hopening.symm.trans hclosing) hne
  · omega
  · omega
  · omega

theorem closesAt_cons_iff (hb : Byte.isQuote b = false) :
    k.ClosesAt depth (b :: t) n ↔
      n = 0 ∧ b = k.closing ∧ depth = 1 ∨ ∃ m, n = m + 1 ∧ k.ClosesAt (depth + k.weight b) t m := by
  constructor
  · rintro ⟨s, u, rest, ht, rfl, hu, hcount⟩
    cases hu with
    | nil =>
      cases ht
      exact .inl ⟨rfl, rfl, by simpa using hcount⟩
    | plain _ hu =>
      cases ht
      exact .inr ⟨_, rfl, _, _, rest, rfl, rfl, hu, (count_cons_eq_iff ..).1 hcount⟩
    | quoted hq =>
      cases ht
      exact absurd hq (by simp [hb])
  · rintro (⟨rfl, rfl, rfl⟩ | ⟨m, rfl, s, u, rest, rfl, rfl, hu, hcount⟩)
    · exact ⟨[], [], t, rfl, rfl, .nil, rfl⟩
    · exact ⟨b :: s, b :: u, rest, rfl, rfl, .plain hb hu, (count_cons_eq_iff ..).2 hcount⟩

/-- After a quote, there is a bracket that closes a group only behind the quoted part. -/
theorem closesAt_quote_iff (hq : Byte.isQuote q) :
    k.ClosesAt depth (q :: t) n ↔
      ∃ body rest m, t = body ++ rest ∧ ClosesQuote (fun _ => True) q body ∧
        n = m + (body.length + 1) ∧ k.ClosesAt depth rest m := by
  constructor
  · rintro ⟨s, u, rest, ht, rfl, hu, hcount⟩
    cases hu with
    | nil =>
      cases ht
      exact absurd hq (by simp [not_isQuote_closing])
    | plain hb =>
      cases ht
      exact absurd hq (by simp [hb])
    | @quoted _ body s _ _ hbody hu =>
      cases ht
      refine ⟨body, s ++ k.closing :: rest, s.length, List.append_assoc .., hbody, ?_,
        s, u, rest, rfl, rfl, hu, hcount⟩
      rw [List.length_cons, List.length_append]
      omega
  · rintro ⟨body, _, m, rfl, hbody, rfl, s, u, rest, rfl, rfl, hu, hcount⟩
    refine ⟨q :: (body ++ s), u, rest, ?_, ?_, .quoted hq hbody hu, hcount⟩
    · rw [List.cons_append, List.append_assoc]
    · rw [List.length_cons, List.length_append]
      omega

/-! ## The scanner -/

/-- The answer is the least number of a set, or none if there is no number in the set. -/
def Finds (S : Set Nat) : Option Nat → Prop
  | some n => IsLeast S n
  | none => ∀ n, n ∉ S

theorem Finds.shift {S S' : Set Nat} {o : Option Nat} (h : Finds S o) (c : Nat)
    (hS : ∀ n, n ∈ S' ↔ ∃ m, n = m + c ∧ m ∈ S) : Finds S' (o.map (· + c)) := by
  cases o with
  | none =>
    intro n hn
    obtain ⟨m, -, hm⟩ := (hS n).1 hn
    exact h m hm
  | some n =>
    refine ⟨(hS _).2 ⟨n, rfl, h.1⟩, fun i hi => ?_⟩
    obtain ⟨m, rfl, hm⟩ := (hS i).1 hi
    exact Nat.add_le_add_right (h.2 hm) c

theorem close_cons (hb : Byte.isQuote b = false) (h : ¬(b = k.closing ∧ depth = 1)) :
    k.close none depth (b :: t) = (k.close none (depth + k.weight b) t).map (· + 1) := by
  rw [close, if_neg (by simp [hb]), weight]
  split_ifs with hopening hclosing hdepth
  · rfl
  · exact absurd ⟨hclosing, hdepth⟩ h
  · rfl
  · rw [Int.add_zero]

theorem close_closing : k.close none 1 (k.closing :: t) = some 0 := by
  rw [close, if_neg (by simp [not_isQuote_closing]), if_neg k.opening_ne_closing.symm, if_pos rfl,
    if_pos rfl]

theorem close_quoted (hq : Byte.isQuote q) (hbody : ClosesQuote (fun _ => True) q body)
    (t : Bytes) :
    k.close none depth (q :: (body ++ t)) = (k.close none depth t).map (· + (body.length + 1)) := by
  have hall := k.map_fst_trace none depth 0 (q :: (body ++ t))
  rw [trace, if_pos hq, trace_quoted (Byte.ne_backslash_of_isQuote hq) hbody, Option.map_map]
    at hall
  have hrest := k.map_fst_trace none depth (0 + 1 + body.length) t
  calc k.close none depth (q :: (body ++ t))
      = (k.close none depth (q :: (body ++ t))).map (· + 0) := by simp
    _ = (k.close none depth t).map (· + (0 + 1 + body.length)) := hall.symm.trans hrest
    _ = (k.close none depth t).map (· + (body.length + 1)) := by
      rw [Nat.zero_add, Nat.add_comm 1]

theorem close_open (hq : Byte.isQuote q)
    (h : ∀ body rest, ClosesQuote (fun _ => True) q body → t ≠ body ++ rest) :
    k.close none depth (q :: t) = none := by
  rw [Option.eq_none_iff_forall_ne_some]
  intro n hn
  obtain ⟨parts, htrace⟩ := exists_trace_of_close hn 0
  rw [trace, if_pos hq] at htrace
  obtain ⟨body, rest, _, ht, hbody, -⟩ := exists_of_trace_quoted htrace
  exact h body rest hbody ht

theorem finds_close (k : Bracket) (depth : Int) (t : Bytes) :
    Finds {n | k.ClosesAt depth t n} (k.close none depth t) := by
  -- A quoted part is skipped as a whole, so the induction is on the length.
  induction hlen : t.length using Nat.strong_induction_on generalizing t depth with
  | _ len ih =>
    subst hlen
    cases t with
    | nil =>
      rintro n ⟨s, u, rest, ht, -⟩
      simp at ht
    | cons b t =>
      by_cases hb : Byte.isQuote b
      · by_cases hbody : ∃ body rest, ClosesQuote (fun _ => True) b body ∧ t = body ++ rest
        · obtain ⟨body, rest, hbody, rfl⟩ := hbody
          have hlt : rest.length < (b :: (body ++ rest)).length := by
            rw [List.length_cons, List.length_append]
            omega
          rw [close_quoted hb hbody]
          refine (ih rest.length hlt depth rest rfl).shift _ fun n => ?_
          refine (closesAt_quote_iff hb).trans ?_
          constructor
          · rintro ⟨body', rest', m, heq, hbody', hn, hm⟩
            obtain ⟨rfl, rfl⟩ := hbody.append_inj (Byte.ne_backslash_of_isQuote hb) hbody' heq
            exact ⟨m, hn, hm⟩
          · rintro ⟨m, hn, hm⟩
            exact ⟨body, rest, m, rfl, hbody, hn, hm⟩
        · rw [close_open hb fun body rest h ht => hbody ⟨body, rest, h, ht⟩]
          intro n hn
          obtain ⟨body, rest, _, ht, h, -⟩ := (closesAt_quote_iff hb).1 hn
          exact hbody ⟨body, rest, h, ht⟩
      · rw [Bool.not_eq_true] at hb
        by_cases hclosing : b = k.closing ∧ depth = 1
        · obtain ⟨rfl, rfl⟩ := hclosing
          rw [close_closing]
          exact ⟨(closesAt_cons_iff hb).2 (.inl ⟨rfl, rfl, rfl⟩), fun n _ => Nat.zero_le n⟩
        · rw [close_cons hb hclosing]
          refine (ih t.length (Nat.lt_succ_self _) _ t rfl).shift 1 fun n => ?_
          refine (closesAt_cons_iff hb).trans ⟨?_, .inr⟩
          rintro (⟨-, hclosing'⟩ | h)
          · exact absurd hclosing' hclosing
          · exact h

/-! ## Groups in a text -/

/-- The closing bracket at the offset `i` of a text is outside of quoted parts, and from the offset
    `pos` up to it, as many brackets outside of quoted parts are closed as opened. -/
structure Matches (k : Bracket) (text : Bytes) (pos i : Nat) : Prop where
  later : pos < i
  closing : text[i]? = some k.closing
  even : ∃ u, Unquoted ((text.take i).drop pos) u ∧
    (u ++ [k.closing]).count k.opening = (u ++ [k.closing]).count k.closing

/-- What comes of a group at the offset `pos` of a text: its inner text or a fault, and the offset
    at which reading goes on. -/
def groupAt (k : Bracket) (text : Bytes) (pos : Nat) : Except Fault Bytes × Nat :=
  match k.group pos (text.drop pos) with
  | .ok (inner, rest) => (.ok inner, text.length - rest.length)
  | .error f => (.error f, pos)

variable {text : Bytes} {pos i : Nat}

theorem count_concat_closing_iff (k : Bracket) (u : Bytes) :
    (u ++ [k.closing]).count k.opening = (u ++ [k.closing]).count k.closing ↔
      (0 : Int) + u.count k.opening = u.count k.closing + 1 := by
  have hzero : [k.closing].count k.opening = 0 :=
    List.count_eq_zero_of_not_mem (by simpa using k.opening_ne_closing)
  rw [List.count_append, List.count_append, List.count_singleton_self, hzero]
  omega

theorem matches_iff_closesAt (hpos : text[pos]? = some k.opening) :
    k.Matches text pos i ↔ ∃ n, i = n + pos ∧ k.ClosesAt 0 (text.drop pos) n := by
  constructor
  · rintro ⟨hlt, hclosing, u, hu, hcount⟩
    obtain ⟨hi, hget⟩ := List.getElem?_eq_some_iff.1 hclosing
    have hsplit : text.drop pos = (text.take i).drop pos ++ k.closing :: text.drop (i + 1) := by
      rw [← hget, ← List.drop_eq_getElem_cons, ← List.drop_append_of_le_length,
        List.take_append_drop]
      rw [List.length_take]
      omega
    refine ⟨i - pos, by omega, _, u, _, hsplit, ?_, hu, (count_concat_closing_iff k u).1 hcount⟩
    rw [List.length_drop, List.length_take]
    omega
  · rintro ⟨n, rfl, s, u, rest, hsplit, hlen, hu, hcount⟩
    have hhead : (text.drop pos).head? = some k.opening := by rwa [List.head?_drop]
    have hn : n ≠ 0 := by
      rintro rfl
      rw [hsplit, List.length_eq_zero_iff.1 hlen] at hhead
      exact k.opening_ne_closing (Option.some.inj hhead).symm
    refine ⟨by omega, ?_, u, ?_, (count_concat_closing_iff k u).2 hcount⟩
    · rw [Nat.add_comm, ← List.getElem?_drop, hsplit, ← hlen]
      simp
    · rw [List.drop_take, Nat.add_sub_cancel, hsplit, List.take_left' hlen]
      exact hu

theorem finds_matches (hpos : text[pos]? = some k.opening) :
    Finds {i | k.Matches text pos i} ((k.close none 0 (text.drop pos)).map (· + pos)) :=
  (k.finds_close 0 (text.drop pos)).shift pos fun _ => matches_iff_closesAt hpos

/-- Whether a bracket closes a group does not depend on what follows it. -/
theorem matches_append_iff (hi : i < text.length) (more : Bytes) :
    k.Matches (text ++ more) pos i ↔ k.Matches text pos i := by
  have hget : (text ++ more)[i]? = text[i]? := List.getElem?_append_left hi
  have htake : (text ++ more).take i = text.take i :=
    List.take_append_of_le_length (Nat.le_of_lt hi)
  constructor
  · rintro ⟨hlt, hclosing, heven⟩
    exact ⟨hlt, hget ▸ hclosing, htake ▸ heven⟩
  · rintro ⟨hlt, hclosing, heven⟩
    exact ⟨hlt, hget ▸ hclosing, htake ▸ heven⟩

theorem isLeast_matches_append (h : IsLeast {i | k.Matches text pos i} i) (more : Bytes) :
    IsLeast {i | k.Matches (text ++ more) pos i} i := by
  have hi : i < text.length := (List.getElem?_eq_some_iff.1 h.1.closing).1
  refine ⟨(matches_append_iff hi more).2 h.1, fun j hj => ?_⟩
  by_contra hlt
  rw [Nat.not_le] at hlt
  exact absurd (h.2 ((matches_append_iff (Nat.lt_trans hlt hi) more).1 hj)) (Nat.not_le.2 hlt)

/-- A group is closed by the first bracket that can close it, or not at all. -/
theorem group_cases (hpos : text[pos]? = some k.opening) :
    (∃ i, IsLeast {i | k.Matches text pos i} i ∧
      k.group pos (text.drop pos) = .ok ((text.take i).drop (pos + 1), text.drop (i + 1))) ∨
    (∀ i, ¬k.Matches text pos i) ∧
      k.group pos (text.drop pos) =
        .error ⟨pos, text.length, .openGroup k.opening k.closing⟩ := by
  have hfinds := finds_matches hpos
  rw [group]
  cases hclose : k.close none 0 (text.drop pos) with
  | none =>
    rw [hclose] at hfinds
    have hlen : pos + (text.drop pos).length = text.length := by
      have := (List.getElem?_eq_some_iff.1 hpos).1
      rw [List.length_drop]
      omega
    exact .inr ⟨hfinds, by rw [← hlen]⟩
  | some n =>
    rw [hclose] at hfinds
    have hinner : ((text.drop pos).drop 1).take (n - 1) = (text.take (n + pos)).drop (pos + 1) := by
      rw [List.drop_drop, List.drop_take, Nat.add_comm n pos, Nat.add_sub_add_left]
    have hrest : (text.drop pos).drop (n + 1) = text.drop (n + pos + 1) := by
      rw [List.drop_drop, Nat.add_comm n pos, Nat.add_assoc]
    exact .inl ⟨n + pos, hfinds, congrArg Except.ok (Prod.ext hinner hrest)⟩

theorem groupAt_of_group {inner : Bytes} (hi : i < text.length)
    (h : k.group pos (text.drop pos) = .ok (inner, text.drop (i + 1))) :
    k.groupAt text pos = (.ok inner, i + 1) := by
  have hoffset : text.length - (text.drop (i + 1)).length = i + 1 := by
    rw [List.length_drop]
    omega
  rw [groupAt, h]
  exact congrArg (Prod.mk _) hoffset

/-- Where there is an opening bracket in a text, a group is read exactly if a later closing bracket
    outside of quoted parts has as many brackets closed as opened up to it. The first such bracket
    closes the group, whatever follows in the text, and reading goes on behind it. If there is none,
    the rest of the text is at fault and nothing of it is taken. -/
theorem groupAt_iff_matches (k : Bracket) (text : Bytes) (pos : Nat)
    (hpos : text[pos]? = some k.opening) :
    ((∃ inner, (k.groupAt text pos).1 = .ok inner) ↔ ∃ i, k.Matches text pos i) ∧
    (∀ i, IsLeast {i | k.Matches text pos i} i → ∀ more,
      k.group pos ((text ++ more).drop pos) =
        .ok ((text.take i).drop (pos + 1), (text ++ more).drop (i + 1)) ∧
      k.groupAt (text ++ more) pos = (.ok ((text.take i).drop (pos + 1)), i + 1)) ∧
    ((∀ i, ¬k.Matches text pos i) →
      k.groupAt text pos = (.error ⟨pos, text.length, .openGroup k.opening k.closing⟩, pos) ∧
        (Problem.openGroup k.opening k.closing).kind = .malformedAttribute) := by
  refine ⟨?_, fun i hi more => ?_, fun h => ⟨?_, rfl⟩⟩
  · rcases group_cases hpos with ⟨i, hi, hgroup⟩ | ⟨hnone, hgroup⟩
    · rw [groupAt, hgroup]
      exact ⟨fun _ => ⟨i, hi.1⟩, fun _ => ⟨_, rfl⟩⟩
    · rw [groupAt, hgroup]
      constructor
      · rintro ⟨_, h⟩
        cases h
      · rintro ⟨i, hi⟩
        exact absurd hi (hnone i)
  · have hlt : i < text.length := (List.getElem?_eq_some_iff.1 hi.1.closing).1
    have hpos' : (text ++ more)[pos]? = some k.opening := by
      rw [List.getElem?_append_left (Nat.lt_trans hi.1.later hlt), hpos]
    have hi' := isLeast_matches_append hi more
    rcases group_cases hpos' with ⟨j, hj, hgroup⟩ | ⟨hnone, -⟩
    · obtain rfl : i = j := Nat.le_antisymm (hi'.2 hj.1) (hj.2 hi'.1)
      rw [List.take_append_of_le_length (Nat.le_of_lt hlt)] at hgroup
      have hlt' : i < (text ++ more).length := by
        rw [List.length_append]
        omega
      exact ⟨hgroup, groupAt_of_group hlt' hgroup⟩
    · exact absurd hi'.1 (hnone i)
  · rcases group_cases hpos with ⟨i, hi, -⟩ | ⟨-, hgroup⟩
    · exact absurd hi.1 (h i)
    · rw [groupAt, hgroup]

/-- Brackets and the other quote in quoted parts, and an escaped quote at the end of one. Then a
    quote that is not closed, with a bracket behind it. -/
theorem groupAt_iff_matches_quoted :
    (∃ i, Bracket.round.Matches "%a(b='c)\"\\'' (d) \"(\") e" 2 i) ∧
      Bracket.round.groupAt "%a(b='c)\"\\'' (d) \"(\") e" 2 = (.ok "b='c)\"\\'' (d) \"(\"", 21) ∧
      ∀ i, ¬Bracket.round.Matches "%a(b='c)" 2 i := by
  have hopen : (Bracket.round.groupAt "%a(b='c)" 2).1.toOption = none := by decide +kernel
  have hclosed : (Bracket.round.groupAt "%a(b='c)\"\\'' (d) \"(\") e" 2).1 =
      .ok "b='c)\"\\'' (d) \"(\"" := toOption_eq_some_iff.1 (by decide +kernel)
  refine ⟨(groupAt_iff_matches .round _ 2 (by decide +kernel)).1.1 ⟨_, hclosed⟩,
    Prod.ext hclosed (by decide +kernel), fun i hi => ?_⟩
  obtain ⟨inner, hinner⟩ :=
    (groupAt_iff_matches .round "%a(b='c)" 2 (by decide +kernel)).1.2 ⟨i, hi⟩
  rw [hinner] at hopen
  cases hopen

end Bracket

end IndentMarkup
