import IndentMarkup.Proofs.Assignments
import IndentMarkup.Proofs.Brackets
import IndentMarkup.Proofs.CanonicalSpan

/-!
# The parts of headers

The header of an element is read from left to right, and each reader takes as much as it can. Here
a header is given by its parts (`Header`): a tag, shorthands, groups, and what is left. Nothing is
lost in them, so they make up a text (`Header.text`), and a text has at most one decomposition into
parts that are *well formed* (`Header.WellFormed`): names and tags are as long as they can be, there
is at most one id, no sigil is left without a name, the brackets of groups match, and no group is
left out.

An element is read from a text exactly if the text has such parts, and the parts denote the element
(`Header.Denotes`). This is `Element.parse_eq_ok_iff_header`.
-/

namespace IndentMarkup

/-- A shorthand in a header. -/
inductive Shorthand where
  /-- The id of an element, after a hash sign. -/
  | idName (name : Bytes)
  /-- One of its classes, after a dot. -/
  | className (name : Bytes)
  deriving DecidableEq

/-- A group in a header. -/
structure Group where
  /-- The kind of its brackets. -/
  bracket : Bracket
  /-- The text between its brackets. -/
  inner : Bytes
  deriving DecidableEq

/-- The parts of a header. -/
structure Header where
  /-- The tag, if the header says it. -/
  tag : Option Bytes
  /-- The shorthands for the id and the classes. -/
  shorthands : List Shorthand
  /-- The groups. -/
  groups : List Group
  /-- What is left, which is the content of the element. -/
  rest : Bytes
  deriving DecidableEq

namespace Shorthand

/-- The name without its sigil. -/
def name : Shorthand → Bytes
  | idName t | className t => t

/-- The byte in front of the name. -/
def sigil : Shorthand → UInt8
  | idName _ => Byte.hash
  | className _ => Byte.dot

/-- The shorthand as it is written. -/
def text (s : Shorthand) : Bytes := s.sigil :: s.name

/-- The ids among shorthands. -/
def ids (ss : List Shorthand) : List Bytes :=
  ss.filterMap fun | idName t => some t | className _ => none

/-- The classes among shorthands. -/
def classes (ss : List Shorthand) : List Bytes :=
  ss.filterMap fun | idName _ => none | className t => some t

/-- The shorthands as they are written. -/
def textOfList (ss : List Shorthand) : Bytes := ss.flatMap text

/-- The names of shorthands before the text `rest` are not empty, and as long as they can be. -/
def AreMaximal (rest : Bytes) : List Shorthand → Prop
  | [] => True
  | s :: ss =>
    s.name.MadeOf isNameByte ∧
      (∀ b ∈ (textOfList ss ++ rest).head?, isNameByte b = false) ∧ AreMaximal rest ss

end Shorthand

namespace Group

/-- The group as it is written. -/
def text (g : Group) : Bytes := g.bracket.opening :: (g.inner ++ [g.bracket.closing])

/-- The groups as they are written. -/
def textOfList (gs : List Group) : Bytes := gs.flatMap text

/-- The inner texts of the groups with brackets of a kind. -/
def inners (k : Bracket) (gs : List Group) : List Bytes :=
  (gs.filter (·.bracket = k)).map inner

end Group

namespace Header

/-- The tag as it is written, after a percent sign. -/
def tagText : Option Bytes → Bytes
  | some tag => Byte.percent :: tag
  | none => []

/-- What follows the shorthands. -/
def body (h : Header) : Bytes := Group.textOfList h.groups ++ h.rest

/-- What follows the tag. -/
def tail (h : Header) : Bytes := Shorthand.textOfList h.shorthands ++ h.body

/-- The header as it is written. -/
def text (h : Header) : Bytes := tagText h.tag ++ h.tail

/-- A tag before the text `rest` is not empty, and as long as it can be. If there is none, the text
    does not start like one. -/
def IsTag (rest : Bytes) : Option Bytes → Prop
  | some tag => tag.MadeOf isTagByte ∧ ∀ b ∈ rest.head?, isTagByte b = false
  | none => rest.head? ≠ some Byte.percent

/-- The parts of a header as they are read. -/
structure WellFormed (h : Header) : Prop where
  tag : IsTag h.tail h.tag
  names : Shorthand.AreMaximal h.body h.shorthands
  ids : (Shorthand.ids h.shorthands).length ≤ 1
  dot : h.body.head? ≠ some Byte.dot
  hash : h.body.head? = some Byte.hash → h.body[1]? = some Byte.lbrace
  groups : ∀ g ∈ h.groups, g.bracket.Balanced g.inner
  rest : ∀ k : Bracket, h.rest.head? ≠ some k.opening

/-- The content that the rest of a header says: an expression after an equals sign, or else a
    span after blanks. -/
def Content (t : Bytes) (s : Span) : Prop :=
  if t.head? = some Byte.eq then
    Bytes.trim t.tail ≠ [] ∧ s = [.interpolation (Bytes.trim t.tail)]
  else Span.parse (Bytes.dropBlanks t) = .ok s

/-- The bindings and the helper calls that groups in braces say: the first group may hold bindings,
    and all others are helper calls. -/
def Braces (inners : List Bytes) (bindings : List Attribute) (helpers : List Bytes) : Prop :=
  ∃ calls, (∀ c ∈ calls, Attribute.startsBinding c = false ∧ Bytes.trim c ≠ []) ∧
    helpers = calls.map Bytes.trim ∧
    (inners = calls ∧ bindings = [] ∨
      ∃ b, inners = b :: calls ∧ Attribute.startsBinding b ∧ Attribute.parse b = .ok bindings)

/-- The element that the parts of a header denote. -/
structure Denotes (h : Header) (el : Element) : Prop where
  tag : el.tag = h.tag.getD Element.defaultTag
  id : el.id = (Shorthand.ids h.shorthands).head?.getD []
  classes : el.classes = Shorthand.classes h.shorthands
  attributes : ∃ ass,
    List.Forall₂ (fun t as => Attribute.parse t = .ok as) (Group.inners .round h.groups) ass ∧
      el.attributes = ass.flatten
  braces : Braces (Group.inners .curly h.groups) el.bindings el.helpers
  content : Content h.rest el.content

end Header

/-! ## The tag -/

/-- Where a run of bytes that satisfy `p` ends is determined by the text. -/
theorem Bytes.append_inj_of_run {p : UInt8 → Bool} {s s' t t' : Bytes} (hs : ∀ b ∈ s, p b)
    (ht : ∀ b ∈ t.head?, p b = false) (hs' : ∀ b ∈ s', p b) (ht' : ∀ b ∈ t'.head?, p b = false)
    (heq : s ++ t = s' ++ t') : s = s' ∧ t = t' := by
  have h := Bytes.span_append hs ht
  have h' := Bytes.span_append hs' ht'
  rw [heq] at h
  exact ⟨h.1.symm.trans h'.1, h.2.symm.trans h'.2⟩

theorem Header.IsTag.unique {tag tag' : Option Bytes} {rest rest' : Bytes} (h : IsTag rest tag)
    (h' : IsTag rest' tag') (heq : tagText tag ++ rest = tagText tag' ++ rest') :
    tag = tag' ∧ rest = rest' := by
  cases tag with
  | none =>
    cases tag' with
    | none => exact ⟨rfl, heq⟩
    | some tag' => exact absurd (congrArg List.head? heq) h
  | some tag =>
    cases tag' with
    | none => exact absurd (congrArg List.head? heq.symm) h'
    | some tag' =>
      obtain ⟨rfl, rfl⟩ :=
        Bytes.append_inj_of_run h.1.2 h.2 h'.1.2 h'.2 (List.cons.inj heq).2
      exact ⟨rfl, rfl⟩

namespace Element

variable {el el' : Element} {t rest : Bytes}

theorem readTag_percent (t : Bytes) :
    readTag (Byte.percent :: t) =
      if (t.takeWhile isTagByte).isEmpty then .error ⟨0, 1, .missingTag⟩
      else .ok (bare (t.takeWhile isTagByte), t.dropWhile isTagByte) := rfl

theorem readTag_of_head_ne (h : t.head? ≠ some Byte.percent) :
    readTag t = .ok (bare defaultTag, t) := by
  unfold readTag
  split
  · exact absurd rfl h
  · rfl

theorem readTag_eq_ok_iff :
    readTag t = .ok (el, rest) ↔
      ∃ tag, t = Header.tagText tag ++ rest ∧ Header.IsTag rest tag ∧
        el = bare (tag.getD defaultTag) := by
  constructor
  · intro h
    by_cases hhead : t.head? = some Byte.percent
    · obtain ⟨t, rfl⟩ := List.head?_eq_some_iff.1 hhead
      rw [readTag_percent] at h
      split at h
      · cases h
      · rename_i htag
        cases h
        refine ⟨some (t.takeWhile isTagByte), ?_, ⟨⟨?_, ?_⟩, Bytes.not_head_dropWhile _ _⟩, rfl⟩
        · rw [Header.tagText, List.cons_append, List.takeWhile_append_dropWhile]
        · simpa using htag
        · exact fun b hb => List.mem_takeWhile_imp hb
    · rw [readTag_of_head_ne hhead] at h
      cases h
      exact ⟨none, rfl, hhead, rfl⟩
  · rintro ⟨tag, rfl, htag, rfl⟩
    cases tag with
    | none => exact readTag_of_head_ne htag
    | some tag =>
      obtain ⟨htake, hdrop⟩ := Bytes.span_append htag.1.2 htag.2
      rw [Header.tagText, List.cons_append, readTag_percent, htake, hdrop,
        if_neg (by simpa using htag.1.1)]
      rfl

end Element

/-! ## Shorthands -/

namespace Shorthand

variable {s s' : Shorthand} {ss ss' : List Shorthand} {rest rest' : Bytes}

theorem eq_of_sigil (hsigil : s.sigil = s'.sigil) (hname : s.name = s'.name) : s = s' := by
  cases s with
  | idName name =>
    cases s' with
    | idName name' => exact congrArg idName hname
    | className name' => cases hsigil
  | className name =>
    cases s' with
    | idName name' => cases hsigil
    | className name' => exact congrArg className hname

theorem textOfList_cons : textOfList (s :: ss) = s.text ++ textOfList ss := rfl

theorem startsShorthand_text (h : s.name.MadeOf isNameByte) (t : Bytes) :
    startsShorthand (s.text ++ t) := by
  cases s with
  | idName name | className name =>
    obtain ⟨c, cs, rfl⟩ := List.exists_cons_of_ne_nil h.1
    exact h.2 c List.mem_cons_self

theorem AreMaximal.unique (h : AreMaximal rest ss) (h' : AreMaximal rest' ss')
    (hrest : startsShorthand rest = false) (hrest' : startsShorthand rest' = false)
    (heq : textOfList ss ++ rest = textOfList ss' ++ rest') : ss = ss' ∧ rest = rest' := by
  induction ss generalizing ss' with
  | nil =>
    cases ss' with
    | nil => exact ⟨rfl, heq⟩
    | cons s' ss' =>
      rw [show rest = s'.text ++ textOfList ss' ++ rest' from heq, List.append_assoc,
        startsShorthand_text h'.1] at hrest
      cases hrest
  | cons s ss ih =>
    cases ss' with
    | nil =>
      rw [show rest' = s.text ++ textOfList ss ++ rest from heq.symm, List.append_assoc,
        startsShorthand_text h.1] at hrest'
      cases hrest'
    | cons s' ss' =>
      rw [textOfList_cons, textOfList_cons, List.append_assoc, List.append_assoc] at heq
      obtain ⟨hname, hend, hss⟩ := h
      obtain ⟨hname', hend', hss'⟩ := h'
      -- The sigils are the same, so what follows them is, and names are cut off in the same place.
      obtain ⟨hsigil, heq⟩ := List.cons.inj heq
      obtain ⟨hnames, htail⟩ := Bytes.append_inj_of_run hname.2 hend hname'.2 hend' heq
      obtain rfl := eq_of_sigil hsigil hnames
      obtain ⟨rfl, rfl⟩ := ih hss hss' htail
      exact ⟨rfl, rfl⟩

end Shorthand

namespace Element

variable {el el' : Element} {len : Nat} {t rest : Bytes} {ss : List Shorthand}

/-- The element with the id and the classes that shorthands say. -/
def withShorthands (el : Element) (ss : List Shorthand) : Element :=
  { el with
    id := (Shorthand.ids ss).head?.getD el.id
    classes := el.classes ++ Shorthand.classes ss }

theorem withShorthands_nil : el.withShorthands [] = el := by
  simp [withShorthands, Shorthand.ids, Shorthand.classes]

theorem withShorthands_className (name : Bytes) :
    { el with classes := el.classes ++ [name] }.withShorthands ss =
      el.withShorthands (.className name :: ss) := by
  simp [withShorthands, Shorthand.ids, Shorthand.classes]

/-- The first id is the one that counts, and it is the only one if there is at most one. -/
theorem withShorthands_idName (name : Bytes) (hss : Shorthand.ids ss = []) :
    { el with id := name }.withShorthands ss = el.withShorthands (.idName name :: ss) := by
  have hids : Shorthand.ids (.idName name :: ss) = name :: Shorthand.ids ss := rfl
  simp [withShorthands, hids, hss, Shorthand.classes]

theorem readShorthands_of_not (h : startsShorthand t = false) :
    readShorthands len el t = .ok (el, t) := by
  fun_cases readShorthands len el t with
  | case1 => simp_all [startsShorthand]
  | case2 => simp_all [startsShorthand]
  | case3 => simp_all [startsShorthand]
  | case4 => rfl
  | case5 => rfl

theorem exists_of_readShorthands (h : readShorthands len el t = .ok (el', rest)) :
    ∃ ss, t = Shorthand.textOfList ss ++ rest ∧ Shorthand.AreMaximal rest ss ∧
      (Shorthand.ids ss).length ≤ (if el.id.isEmpty then 1 else 0) ∧
      el' = el.withShorthands ss := by
  fun_induction readShorthands len el t with
  | case1 el c t name rest' _ hc ih =>
    obtain ⟨ss, hrest, hss, hids, rfl⟩ := ih h
    refine ⟨.className name :: ss, ?_, ⟨?_, ?_, hss⟩, hids, withShorthands_className name⟩
    · rw [Shorthand.textOfList_cons, List.append_assoc, ← hrest]
      simp [Shorthand.text, Shorthand.sigil, Shorthand.name, name, rest']
    · exact Bytes.madeOf_cons_takeWhile hc.2 t
    · rw [← hrest]
      exact Bytes.not_head_dropWhile _ _
  | case2 el s c t hc name rest' _ hs hid ih =>
    obtain ⟨ss, hrest, hss, hids, rfl⟩ := ih h
    -- There is an id now, so no other one follows.
    have hnil : Shorthand.ids ss = [] := List.length_eq_zero_iff.1 (Nat.le_zero.1 hids)
    refine ⟨.idName name :: ss, ?_, ⟨?_, ?_, hss⟩, ?_, withShorthands_idName name hnil⟩
    · rw [Shorthand.textOfList_cons, List.append_assoc, ← hrest, hc.1.resolve_right hs]
      simp [Shorthand.text, Shorthand.sigil, Shorthand.name, name, rest']
    · exact Bytes.madeOf_cons_takeWhile hc.2 t
    · rw [← hrest]
      exact Bytes.not_head_dropWhile _ _
    · have hids' : Shorthand.ids (.idName name :: ss) = name :: Shorthand.ids ss := rfl
      rw [if_pos hid, hids', hnil, List.length_singleton]
  | case3 => cases h
  | case4 =>
    cases h
    exact ⟨[], rfl, trivial, Nat.zero_le _, withShorthands_nil.symm⟩
  | case5 =>
    cases h
    exact ⟨[], rfl, trivial, Nat.zero_le _, withShorthands_nil.symm⟩

theorem readShorthands_append (hss : Shorthand.AreMaximal rest ss)
    (hids : (Shorthand.ids ss).length ≤ (if el.id.isEmpty then 1 else 0))
    (hrest : startsShorthand rest = false) :
    readShorthands len el (Shorthand.textOfList ss ++ rest) = .ok (el.withShorthands ss, rest) := by
  induction ss generalizing el with
  | nil =>
    rw [withShorthands_nil]
    exact readShorthands_of_not hrest
  | cons s ss ih =>
    obtain ⟨hname, hend, hss⟩ := hss
    rw [Shorthand.textOfList_cons, List.append_assoc]
    cases s with
    | className name =>
      obtain ⟨c, cs, rfl⟩ := List.exists_cons_of_ne_nil hname.1
      have hcs := fun b hb => hname.2 b (List.mem_cons_of_mem c hb)
      obtain ⟨htake, hdrop⟩ := Bytes.span_append hcs hend
      rw [← withShorthands_className, Shorthand.text, Shorthand.sigil, Shorthand.name,
        List.cons_append, List.cons_append, readShorthands,
        if_pos ⟨.inr rfl, hname.2 c List.mem_cons_self⟩, if_pos rfl, htake, hdrop]
      exact ih hss hids
    | idName name =>
      obtain ⟨c, cs, rfl⟩ := List.exists_cons_of_ne_nil hname.1
      have hcs := fun b hb => hname.2 b (List.mem_cons_of_mem c hb)
      obtain ⟨htake, hdrop⟩ := Bytes.span_append hcs hend
      have hids' : Shorthand.ids (.idName (c :: cs) :: ss) = (c :: cs) :: Shorthand.ids ss := rfl
      rw [hids', List.length_cons] at hids
      have hid : el.id.isEmpty := by
        by_contra hid
        rw [if_neg hid] at hids
        omega
      have hnil : Shorthand.ids ss = [] := by
        rw [if_pos hid] at hids
        exact List.length_eq_zero_iff.1 (by omega)
      rw [← withShorthands_idName _ hnil, Shorthand.text, Shorthand.sigil, Shorthand.name,
        List.cons_append, List.cons_append, readShorthands,
        if_pos ⟨.inl rfl, hname.2 c List.mem_cons_self⟩, if_neg (by decide), if_pos hid, htake,
        hdrop]
      exact ih hss (by rw [hnil]; exact Nat.zero_le _)

theorem danglingSigil?_eq_none_iff :
    danglingSigil? t = none ↔
      t.head? ≠ some Byte.dot ∧ (t.head? = some Byte.hash → t[1]? = some Byte.lbrace) := by
  cases t with
  | nil => simp [danglingSigil?]
  | cons b t => simp [danglingSigil?, List.head?_eq_getElem?]

theorem not_startsShorthand_of_danglingSigil? (h : danglingSigil? t = none) :
    startsShorthand t = false := by
  obtain ⟨hdot, hhash⟩ := danglingSigil?_eq_none_iff.1 h
  unfold startsShorthand
  split
  · rename_i s c t
    by_cases hs : s = Byte.hash
    · have hc : c = Byte.lbrace := by simpa [hs] using hhash
      rw [hc]
      exact Bool.and_false _
    · have hs' : s ≠ Byte.dot := by simpa using hdot
      simp [hs, hs']
  · rfl

end Element

/-! ## Groups -/

theorem Bracket.opening_injective : Function.Injective Bracket.opening := by
  intro k k' h
  cases k with
  | round =>
    cases k' with
    | round => rfl
    | curly => cases h
  | curly =>
    cases k' with
    | round => cases h
    | curly => rfl

namespace Group

variable {g : Group} {gs gs' : List Group} {rest rest' : Bytes}

theorem text_append :
    g.text ++ rest = g.bracket.opening :: (g.inner ++ g.bracket.closing :: rest) := by
  simp [text]

theorem textOfList_cons : textOfList (g :: gs) = g.text ++ textOfList gs := rfl

theorem textOfList_append_inj (h : ∀ g ∈ gs, g.bracket.Balanced g.inner)
    (h' : ∀ g ∈ gs', g.bracket.Balanced g.inner)
    (hrest : ∀ k : Bracket, rest.head? ≠ some k.opening)
    (hrest' : ∀ k : Bracket, rest'.head? ≠ some k.opening)
    (heq : textOfList gs ++ rest = textOfList gs' ++ rest') : gs = gs' ∧ rest = rest' := by
  induction gs generalizing gs' with
  | nil =>
    cases gs' with
    | nil => exact ⟨rfl, heq⟩
    | cons g' gs' => exact absurd (congrArg List.head? heq) (hrest g'.bracket)
  | cons g gs ih =>
    cases gs' with
    | nil => exact absurd (congrArg List.head? heq.symm) (hrest' g.bracket)
    | cons g' gs' =>
      obtain ⟨k, inner⟩ := g
      obtain ⟨k', inner'⟩ := g'
      rw [textOfList_cons, textOfList_cons, List.append_assoc, List.append_assoc, text_append,
        text_append] at heq
      obtain rfl : k = k' := Bracket.opening_injective (List.cons.inj heq).1
      have hg := Bracket.group_balanced (h _ List.mem_cons_self) 0 (textOfList gs ++ rest)
      rw [heq, Bracket.group_balanced (h' _ List.mem_cons_self)] at hg
      obtain ⟨rfl, htail⟩ := Prod.mk.inj (Except.ok.inj hg)
      obtain ⟨rfl, rfl⟩ := ih (fun g hg => h g (List.mem_cons_of_mem _ hg))
        (fun g hg => h' g (List.mem_cons_of_mem _ hg)) htail.symm
      exact ⟨rfl, rfl⟩

end Group

namespace Element

/-- The element with what a group says, which is at the given offsets. -/
def addGroup (start stop : Nat) (el : Element) (g : Group) : Except Fault Element :=
  match g.bracket with
  | .round => addParens start el g.inner
  | .curly => addBraces start stop el g.inner

/-- What a group adds to an element. -/
inductive Adds : Element → Group → Element → Prop
  /-- Plain attributes. -/
  | attributes {el : Element} {inner : Bytes} {as : List Attribute}
      (hparse : Attribute.parse inner = .ok as) :
      Adds el ⟨.round, inner⟩ { el with attributes := el.attributes ++ as }
  /-- Bindings, of which there were none, and before all helper calls. -/
  | bindings {el : Element} {inner : Bytes} {bs : List Attribute} (hbindings : el.bindings = [])
      (hhelpers : el.helpers = []) (hstart : Attribute.startsBinding inner)
      (hparse : Attribute.parse inner = .ok bs) :
      Adds el ⟨.curly, inner⟩ { el with bindings := bs }
  /-- A helper call. -/
  | helper {el : Element} {inner : Bytes} (hstart : Attribute.startsBinding inner = false)
      (htrim : Bytes.trim inner ≠ []) :
      Adds el ⟨.curly, inner⟩ { el with helpers := el.helpers ++ [Bytes.trim inner] }

/-- What groups add to an element, one after the other. -/
inductive AddsAll : Element → List Group → Element → Prop
  | nil {el : Element} : AddsAll el [] el
  | cons {el el₁ el' : Element} {g : Group} {gs : List Group} (hg : Adds el g el₁)
      (hgs : AddsAll el₁ gs el') : AddsAll el (g :: gs) el'

variable {el el' : Element} {len : Nat} {t rest : Bytes} {g : Group} {gs : List Group}

theorem addGroup_eq_ok_iff (start stop : Nat) :
    addGroup start stop el g = .ok el' ↔ Adds el g el' := by
  obtain ⟨k, inner⟩ := g
  constructor
  · intro h
    cases k with
    | round =>
      obtain ⟨as, has, h⟩ := bind_eq_ok_iff.1 h
      cases h
      exact .attributes (mapError_eq_ok_iff.1 has)
    | curly =>
      change addBraces start stop el inner = .ok el' at h
      rw [addBraces] at h
      split at h
      · rename_i hstart
        split at h
        · cases h
        · rename_i hbindings
          split at h
          · cases h
          · rename_i hhelpers
            obtain ⟨bs, hbs, h⟩ := bind_eq_ok_iff.1 h
            cases h
            exact .bindings (by simpa using hbindings) (by simpa using hhelpers) hstart
              (mapError_eq_ok_iff.1 hbs)
      · rename_i hstart
        dsimp only at h
        split at h
        · cases h
        · rename_i htrim
          cases h
          exact .helper (by simpa using hstart) (by simpa using htrim)
  · intro h
    cases h with
    | attributes hparse => exact bind_eq_ok_iff.2 ⟨_, mapError_eq_ok_iff.2 hparse, rfl⟩
    | bindings hbindings hhelpers hstart hparse =>
      change addBraces start stop el inner = _
      rw [addBraces, if_pos hstart, if_neg (by simp [hbindings]), if_neg (by simp [hhelpers])]
      exact bind_eq_ok_iff.2 ⟨_, mapError_eq_ok_iff.2 hparse, rfl⟩
    | helper hstart htrim =>
      change addBraces start stop el inner = _
      rw [addBraces, if_neg (by simp [hstart]), if_neg (by simpa using htrim)]

theorem readGroups_of_not (h : ∀ k : Bracket, t.head? ≠ some k.opening) :
    readGroups len el t = .ok (el, t) := by
  rw [readGroups]
  split
  · exact absurd ‹_› (h .round)
  · exact absurd ‹_› (h .curly)
  · rfl

/-- A group is taken off and added, and reading goes on after it. -/
theorem readGroups_text_append (h : g.bracket.Balanced g.inner) :
    readGroups len el (g.text ++ rest) =
      (addGroup (len - (g.text ++ rest).length) (len - rest.length) el g >>= fun el =>
        readGroups len el rest) := by
  obtain ⟨k, inner⟩ := g
  have hgroup : k.group (len - ((⟨k, inner⟩ : Group).text ++ rest).length)
      ((⟨k, inner⟩ : Group).text ++ rest) = .ok (inner, rest) := by
    rw [Group.text_append]
    exact Bracket.group_balanced h _ rest
  rw [readGroups]
  cases k with
  | round =>
    change _ = (addParens _ el inner >>= fun el => readGroups len el rest)
    split
    · split
      · cases hgroup.symm.trans ‹_›
      · cases hgroup.symm.trans ‹_›
        cases addParens _ el inner <;> rfl
    · rename_i hhead
      cases hhead
    · rename_i hround _
      exact absurd rfl hround
  | curly =>
    change _ = (addBraces _ _ el inner >>= fun el => readGroups len el rest)
    split
    · rename_i hhead
      cases hhead
    · split
      · cases hgroup.symm.trans ‹_›
      · cases hgroup.symm.trans ‹_›
        cases addBraces _ _ el inner <;> rfl
    · rename_i hcurly
      exact absurd rfl hcurly

theorem exists_groups_cons {k : Bracket} {off : Nat} {inner rest' : Bytes} {el₁ : Element}
    (hk : t.head? = some k.opening) (hgroup : k.group off t = .ok (inner, rest'))
    (hadd : Adds el ⟨k, inner⟩ el₁)
    (h : ∃ gs, rest' = Group.textOfList gs ++ rest ∧ (∀ g ∈ gs, g.bracket.Balanced g.inner) ∧
      AddsAll el₁ gs el') :
    ∃ gs, t = Group.textOfList gs ++ rest ∧ (∀ g ∈ gs, g.bracket.Balanced g.inner) ∧
      AddsAll el gs el' := by
  obtain ⟨rfl, hinner⟩ := (Bracket.group_eq_ok_iff hk).1 hgroup
  obtain ⟨gs, rfl, hgs, hadds⟩ := h
  refine ⟨⟨k, inner⟩ :: gs, ?_, List.forall_mem_cons.2 ⟨hinner, hgs⟩, .cons hadd hadds⟩
  rw [Group.textOfList_cons, List.append_assoc, Group.text_append]

theorem exists_groups_of_readGroups (h : readGroups len el t = .ok (el', rest)) :
    (∃ gs, t = Group.textOfList gs ++ rest ∧ (∀ g ∈ gs, g.bracket.Balanced g.inner) ∧
      AddsAll el gs el') ∧ ∀ k : Bracket, rest.head? ≠ some k.opening := by
  fun_induction readGroups len el t with
  | case1 => cases h
  | case2 => cases h
  | case3 el t start hhead inner rest' hgroup _ el₁ hadd ih =>
    refine (ih h).imp_left (exists_groups_cons (k := .round) hhead hgroup ?_)
    exact (addGroup_eq_ok_iff start 0).1 hadd
  | case4 => cases h
  | case5 => cases h
  | case6 el t start hhead inner rest' hgroup _ el₁ hadd ih =>
    refine (ih h).imp_left (exists_groups_cons (k := .curly) hhead hgroup ?_)
    exact (addGroup_eq_ok_iff start _).1 hadd
  | case7 el t hround hcurly =>
    cases h
    refine ⟨⟨[], rfl, List.forall_mem_nil _, .nil⟩, fun k => ?_⟩
    cases k with
    | round => exact hround
    | curly => exact hcurly

/-- Groups are read as far as there are any. -/
theorem readGroups_eq_ok_iff :
    readGroups len el t = .ok (el', rest) ↔
      (∃ gs, t = Group.textOfList gs ++ rest ∧ (∀ g ∈ gs, g.bracket.Balanced g.inner) ∧
        AddsAll el gs el') ∧ ∀ k : Bracket, rest.head? ≠ some k.opening := by
  refine ⟨exists_groups_of_readGroups, ?_⟩
  rintro ⟨⟨gs, rfl, hgs, hadds⟩, hrest⟩
  induction hadds with
  | nil => exact readGroups_of_not hrest
  | cons hg _ ih =>
    obtain ⟨hinner, hgs⟩ := List.forall_mem_cons.1 hgs
    rw [Group.textOfList_cons, List.append_assoc, readGroups_text_append hinner]
    exact bind_eq_ok_iff.2 ⟨_, (addGroup_eq_ok_iff _ _).2 hg, ih hgs⟩

/-- What groups add: the plain attributes come one after the other. The first group in braces may
    hold bindings, if nothing was said in braces before, and all others are helper calls. -/
theorem addsAll_iff :
    AddsAll el gs el' ↔
      ∃ ass calls bs,
        List.Forall₂ (fun t as => Attribute.parse t = .ok as) (Group.inners .round gs) ass ∧
        (∀ c ∈ calls, Attribute.startsBinding c = false ∧ Bytes.trim c ≠ []) ∧
        (Group.inners .curly gs = calls ∧ bs = el.bindings ∨
          ∃ b, Group.inners .curly gs = b :: calls ∧ el.bindings = [] ∧ el.helpers = [] ∧
            Attribute.startsBinding b ∧ Attribute.parse b = .ok bs) ∧
        el' = { el with
          attributes := el.attributes ++ ass.flatten
          bindings := bs
          helpers := el.helpers ++ calls.map Bytes.trim } := by
  constructor
  · intro h
    induction h with
    | nil => exact ⟨[], [], _, .nil, List.forall_mem_nil _, .inl ⟨rfl, rfl⟩, by simp⟩
    | @cons el el₁ el' g gs hg _ ih =>
      obtain ⟨ass, calls, bs, hass, hcalls, hbraces, rfl⟩ := ih
      cases hg with
      | @attributes _ as hparse =>
        exact ⟨as :: ass, calls, bs, .cons hparse hass, hcalls, hbraces, by simp⟩
      | @bindings inner _ hbindings hhelpers hstart hparse =>
        rcases hbraces with ⟨hcurly, rfl⟩ | ⟨b, -, hnil, -⟩
        · refine ⟨ass, calls, bs, hass, hcalls, .inr ⟨inner, ?_, ?_⟩, rfl⟩
          · exact congrArg (inner :: ·) hcurly
          · exact ⟨hbindings, hhelpers, hstart, hparse⟩
        · exact absurd hnil (Attribute.ne_nil_of_startsBinding hstart hparse)
      | @helper inner hstart htrim =>
        rcases hbraces with ⟨hcurly, rfl⟩ | ⟨b, -, -, hnil, -⟩
        · refine ⟨ass, inner :: calls, el.bindings, hass, ?_, .inl ⟨?_, rfl⟩, by simp⟩
          · exact List.forall_mem_cons.2 ⟨⟨hstart, htrim⟩, hcalls⟩
          · exact congrArg (inner :: ·) hcurly
        · simp at hnil
  · rintro ⟨ass, calls, bs, hass, hcalls, hbraces, rfl⟩
    induction gs generalizing el ass calls with
    | nil =>
      cases hass
      rcases hbraces with ⟨rfl, rfl⟩ | ⟨b, hb, -⟩
      · simpa [Group.inners] using AddsAll.nil
      · cases hb
    | cons g gs ih =>
      obtain ⟨k, inner⟩ := g
      cases k with
      | round =>
        cases hass with
        | @cons _ as _ ass hparse hass =>
          refine .cons (.attributes hparse) ?_
          have hgs := @ih { el with attributes := el.attributes ++ as } _ _ hass hcalls hbraces
          simpa using hgs
      | curly =>
        rcases hbraces with ⟨hcurly, rfl⟩ | ⟨b, hb, hbindings, hhelpers, hstart, hparse⟩
        · obtain rfl : inner :: Group.inners .curly gs = calls := hcurly
          obtain ⟨⟨hstart, htrim⟩, hcalls⟩ := List.forall_mem_cons.1 hcalls
          refine .cons (.helper hstart htrim) ?_
          have hgs := @ih { el with helpers := el.helpers ++ [Bytes.trim inner] } _ _ hass hcalls
            (.inl ⟨rfl, rfl⟩)
          simpa using hgs
        · obtain ⟨rfl, rfl⟩ := List.cons.inj hb
          refine .cons (.bindings hbindings hhelpers hstart hparse) ?_
          exact ih _ _ hass hcalls (.inl ⟨rfl, rfl⟩)

end Element

/-! ## The content, and whole headers -/

/-- What a span denotes does not depend on where it is. -/
theorem Span.parseFrom_eq_ok_iff {off : Nat} {t : Bytes} {s : Span} :
    parseFrom off t = .ok s ↔ parse t = .ok s := by
  constructor
  · intro h
    rw [parse, ← source_of_parseFrom h]
    exact parseFrom_source (isRead_of_parseFrom h) 0
  · intro h
    rw [← source_of_parseFrom h]
    exact parseFrom_source (isRead_of_parseFrom h) off

namespace Element

variable {el : Element} {len : Nat} {t : Bytes} {s : Span}

theorem readContent_eq (rest : Bytes) :
    readContent len (Byte.eq :: rest) =
      if (Bytes.trim rest).isEmpty then
        .error ⟨len - (rest.length + 1), len - (rest.length + 1) + 1, .missingExpression⟩
      else .ok [.interpolation (Bytes.trim rest)] := rfl

theorem readContent_of_head_ne (h : t.head? ≠ some Byte.eq) :
    readContent len t =
      Span.parseFrom (len - (Bytes.dropBlanks t).length) (Bytes.dropBlanks t) := by
  unfold readContent
  split
  · exact absurd rfl h
  · rfl

theorem readContent_eq_ok_iff : readContent len t = .ok s ↔ Header.Content t s := by
  rw [Header.Content]
  split
  · rename_i hhead
    obtain ⟨rest, rfl⟩ := List.head?_eq_some_iff.1 hhead
    rw [readContent_eq, List.tail_cons]
    split
    · rename_i hvalue
      refine ⟨fun h => ?_, fun h => absurd (List.isEmpty_iff.1 hvalue) h.1⟩
      cases h
    · rename_i hvalue
      rw [Except.ok.injEq, eq_comm]
      exact (and_iff_right (by simpa using hvalue)).symm
  · rename_i hhead
    rw [readContent_of_head_ne hhead]
    exact Span.parseFrom_eq_ok_iff

/-- A header is read by its readers, one after the other. -/
theorem parse_eq_ok_iff_steps :
    parse t = .ok el ↔
      ∃ el₁ rest₁ el₂ rest₂ el₃ rest₃ content,
        readTag t = .ok (el₁, rest₁) ∧
        readShorthands t.length el₁ rest₁ = .ok (el₂, rest₂) ∧
        danglingSigil? rest₂ = none ∧
        readGroups t.length el₂ rest₂ = .ok (el₃, rest₃) ∧
        readContent t.length rest₃ = .ok content ∧
        el = { el₃ with content } := by
  constructor
  · intro h
    obtain ⟨⟨el₁, rest₁⟩, htag, h⟩ := bind_eq_ok_iff.1 h
    obtain ⟨⟨el₂, rest₂⟩, hshort, h⟩ := bind_eq_ok_iff.1 h
    dsimp only at h
    split at h
    · cases h
    · rename_i hsigil
      obtain ⟨⟨el₃, rest₃⟩, hgroups, h⟩ := bind_eq_ok_iff.1 h
      obtain ⟨content, hcontent, h⟩ := bind_eq_ok_iff.1 h
      cases h
      exact ⟨el₁, rest₁, el₂, rest₂, el₃, rest₃, content, htag, hshort, hsigil, hgroups,
        hcontent, rfl⟩
  · rintro ⟨el₁, rest₁, el₂, rest₂, el₃, rest₃, content, htag, hshort, hsigil, hgroups, hcontent,
      rfl⟩
    refine bind_eq_ok_iff.2 ⟨_, htag, bind_eq_ok_iff.2 ⟨_, hshort, ?_⟩⟩
    dsimp only
    rw [hsigil]
    exact bind_eq_ok_iff.2 ⟨_, hgroups, bind_eq_ok_iff.2 ⟨_, hcontent, rfl⟩⟩

end Element

namespace Header

variable {h h' : Header} {el : Element}

/-- A text is made up of well-formed parts in at most one way. -/
theorem WellFormed.ext (hwf : h.WellFormed) (hwf' : h'.WellFormed) (htext : h.text = h'.text) :
    h = h' := by
  have hsigil := Element.danglingSigil?_eq_none_iff.2 ⟨hwf.dot, hwf.hash⟩
  have hsigil' := Element.danglingSigil?_eq_none_iff.2 ⟨hwf'.dot, hwf'.hash⟩
  obtain ⟨htag, htail⟩ := hwf.tag.unique hwf'.tag htext
  obtain ⟨hshort, hbody⟩ := hwf.names.unique hwf'.names
    (Element.not_startsShorthand_of_danglingSigil? hsigil)
    (Element.not_startsShorthand_of_danglingSigil? hsigil') htail
  obtain ⟨hgroups, hrest⟩ :=
    Group.textOfList_append_inj hwf.groups hwf'.groups hwf.rest hwf'.rest hbody
  cases h
  cases h'
  cases htag
  cases hshort
  cases hgroups
  cases hrest
  rfl

end Header

namespace Element

variable {el : Element}

theorem exists_header_of_parse {t : Bytes} (hparse : parse t = .ok el) :
    ∃ h : Header, h.text = t ∧ h.WellFormed ∧ h.Denotes el := by
  obtain ⟨_, _, _, _, _, rest, content, hhead, hshort, hsigil, hgroups, hcontent, rfl⟩ :=
    parse_eq_ok_iff_steps.1 hparse
  obtain ⟨tag, rfl, htag, rfl⟩ := readTag_eq_ok_iff.1 hhead
  obtain ⟨ss, rfl, hss, hids, rfl⟩ := exists_of_readShorthands hshort
  obtain ⟨⟨gs, rfl, hgs, hadds⟩, hrest⟩ := readGroups_eq_ok_iff.1 hgroups
  obtain ⟨ass, calls, bs, hass, hcalls, hbraces, rfl⟩ := addsAll_iff.1 hadds
  obtain ⟨hdot, hhash⟩ := danglingSigil?_eq_none_iff.1 hsigil
  refine ⟨⟨tag, ss, gs, rest⟩, rfl, ⟨htag, hss, hids, hdot, hhash, hgs, hrest⟩, ?_⟩
  refine ⟨rfl, rfl, rfl, ⟨ass, hass, rfl⟩, ⟨calls, hcalls, rfl, ?_⟩,
    readContent_eq_ok_iff.1 hcontent⟩
  rcases hbraces with hnone | ⟨b, hb, -, -, hstart, hparse⟩
  · exact .inl hnone
  · exact .inr ⟨b, hb, hstart, hparse⟩

theorem parse_text {h : Header} (hwf : h.WellFormed) (hel : h.Denotes el) :
    parse h.text = .ok el := by
  have hsigil := danglingSigil?_eq_none_iff.2 ⟨hwf.dot, hwf.hash⟩
  obtain ⟨ass, hass, hattributes⟩ := hel.attributes
  obtain ⟨calls, hcalls, hhelpers, hbraces⟩ := hel.braces
  refine parse_eq_ok_iff_steps.2 ⟨_, h.tail, _, h.body, _, h.rest, el.content,
    readTag_eq_ok_iff.2 ⟨h.tag, rfl, hwf.tag, rfl⟩,
    readShorthands_append hwf.names hwf.ids (not_startsShorthand_of_danglingSigil? hsigil), hsigil,
    readGroups_eq_ok_iff.2 ⟨⟨h.groups, rfl, hwf.groups, addsAll_iff.2
      ⟨ass, calls, el.bindings, hass, hcalls, ?_, rfl⟩⟩, hwf.rest⟩,
    readContent_eq_ok_iff.2 hel.content, ?_⟩
  · rcases hbraces with hnone | ⟨b, hb, hstart, hparse⟩
    · exact .inl hnone
    · exact .inr ⟨b, hb, rfl, rfl, hstart, hparse⟩
  · obtain ⟨tag, id, classes, attributes, bindings, helpers, content⟩ := el
    obtain rfl : tag = _ := hel.tag
    obtain rfl : id = _ := hel.id
    obtain rfl : classes = _ := hel.classes
    obtain rfl : attributes = _ := hattributes
    obtain rfl : helpers = _ := hhelpers
    rfl

/-- A header is read exactly if it is made up of well-formed parts, and there is at most one way to
    do so. The element is then the one that the parts denote. -/
theorem parse_eq_ok_iff_header (t : Bytes) :
    (∀ h h' : Header, h.text = t → h.WellFormed → h'.text = t → h'.WellFormed → h = h') ∧
      ∀ el, parse t = .ok el ↔ ∃ h : Header, h.text = t ∧ h.WellFormed ∧ h.Denotes el := by
  refine ⟨fun h h' ht hwf ht' hwf' => hwf.ext hwf' (ht.trans ht'.symm), fun el => ?_⟩
  refine ⟨exists_header_of_parse, ?_⟩
  rintro ⟨h, rfl, hwf, hel⟩
  exact parse_text hwf hel

end Element

end IndentMarkup
