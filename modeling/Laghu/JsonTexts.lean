import Laghu.BigEndian
import Mathlib.Data.Nat.Digits.Lemmas

/-!
Texts of a small JSON dialect: numbers are unsigned decimals, and the keys of an object are
compared as they are written. A tree keeps the text of every array and object, so blanks
between the tokens are part of it; `WellFormed` says that the texts are right.
-/

namespace Laghu.JsonTexts

open List

open BigEndian (Byte)

abbrev Text := List Byte

def ascii (s : String) : Text := s.toList.map fun c => BitVec.ofNat 8 c.toNat

abbrev quote : Byte := 0x22#8
abbrev backslash : Byte := 0x5c#8
abbrev comma : Byte := 0x2c#8
abbrev colon : Byte := 0x3a#8
abbrev zero : Byte := 0x30#8
abbrev openBracket : Byte := 0x5b#8
abbrev closeBracket : Byte := 0x5d#8
abbrev openBrace : Byte := 0x7b#8
abbrev closeBrace : Byte := 0x7d#8

def isSpace (character : Byte) : Bool :=
  character = 0x20#8 || character = 0x0a#8 || character = 0x0d#8 || character = 0x09#8

def isDigit (character : Byte) : Bool := 0x30#8 ≤ character && character ≤ 0x39#8

def isHex (character : Byte) : Bool :=
  isDigit character || (0x61#8 ≤ character && character ≤ 0x66#8) ||
    (0x41#8 ≤ character && character ≤ 0x46#8)

/-- What may follow a backslash, apart from `u`. -/
def isEscape (character : Byte) : Bool := character ∈ ascii "\"\\/bfnrt"

def Blank (text : Text) : Prop := ∀ c ∈ text, isSpace c = true

/-- What stands between the quotes of a string. -/
inductive StringBody : Text → Prop
  | nil : StringBody []
  | plain {c : Byte} {rest : Text} (hcontrol : 0x20#8 ≤ c) (hquote : c ≠ quote)
      (hescape : c ≠ backslash) (h : StringBody rest) : StringBody (c :: rest)
  | escape {e : Byte} {rest : Text} (he : isEscape e = true) (h : StringBody rest) :
      StringBody (backslash :: e :: rest)
  | unicode {digits rest : Text} (hlength : digits.length = 4) (hhex : ∀ c ∈ digits, isHex c = true)
      (h : StringBody rest) : StringBody (backslash :: 0x75#8 :: (digits ++ rest))

def decimalValue (digits : Text) : ℕ := digits.foldl (fun v d => v * 10 + (d.toNat - 0x30)) 0

/-- An unsigned decimal without leading zeros. -/
structure Decimal (digits : Text) : Prop where
  nonempty : digits ≠ []
  numerals : ∀ d ∈ digits, isDigit d = true
  leading : digits.head? = some zero → digits = [zero]

inductive Json
  | null
  | boolean (value : Bool)
  | number (digits : Text)
  | string (body : Text)
  | array (raw : Text) (items : List Json)
  | object (raw : Text) (members : List (Text × Json))

namespace Json

def raw : Json → Text
  | .null => ascii "null"
  | .boolean true => ascii "true"
  | .boolean false => ascii "false"
  | .number digits => digits
  | .string body => quote :: (body ++ [quote])
  | .array raw _ => raw
  | .object raw _ => raw

-- The values in a tree, each before the values in it.
mutual
def preorder : Json → List Json
  | .array raw items => .array raw items :: preorderItems items
  | .object raw members => .object raw members :: preorderMembers members
  | leaf => [leaf]

def preorderItems : List Json → List Json
  | [] => []
  | item :: rest => item.preorder ++ preorderItems rest

def preorderMembers : List (Text × Json) → List Json
  | [] => []
  | (_, value) :: rest => value.preorder ++ preorderMembers rest
end

-- How many levels of values there are below a value.
mutual
def height : Json → ℕ
  | .array _ items => heightItems items
  | .object _ members => heightMembers members
  | _ => 0

def heightItems : List Json → ℕ
  | [] => 0
  | item :: rest => max (item.height + 1) (heightItems rest)

def heightMembers : List (Text × Json) → ℕ
  | [] => 0
  | (_, value) :: rest => max (value.height + 1) (heightMembers rest)
end

/-- How many values a tree has. -/
def values (t : Json) : ℕ := t.preorder.length

def memberCount : Json → ℕ
  | .object _ members => members.length
  | _ => 0

def elementCount : Json → ℕ
  | .array _ items => items.length
  | _ => 0

/-- How many members the objects of a tree have. -/
def memberTotal (t : Json) : ℕ := (t.preorder.map memberCount).sum

/-- How many elements the arrays of a tree have. -/
def elementTotal (t : Json) : ℕ := (t.preorder.map elementCount).sum

end Json

/-- The pieces of a list, separated by commas, and blanks around them. -/
inductive Layout : List Text → Text → Prop
  | none {blank : Text} (h : Blank blank) : Layout [] blank
  | last {before piece after : Text} (hbefore : Blank before) (hafter : Blank after) :
      Layout [piece] (before ++ (piece ++ after))
  | more {before piece after next text : Text} {pieces : List Text} (hbefore : Blank before)
      (hafter : Blank after) (h : Layout (next :: pieces) text) :
      Layout (piece :: next :: pieces) (before ++ (piece ++ (after ++ comma :: text)))

/-- A key, a colon and a value. -/
inductive MemberText (key value : Text) : Text → Prop
  | intro {before after : Text} (hkey : StringBody key) (hbefore : Blank before)
      (hafter : Blank after) :
      MemberText key value (quote :: (key ++ quote :: (before ++ colon :: (after ++ value))))

inductive WellFormed : Json → Prop
  | null : WellFormed .null
  | boolean (value : Bool) : WellFormed (.boolean value)
  | number {digits : Text} (hdigits : Decimal digits) (hfits : decimalValue digits < 2 ^ 64) :
      WellFormed (.number digits)
  | string {body : Text} (hbody : StringBody body) : WellFormed (.string body)
  | array {inner : Text} {items : List Json} (hitems : ∀ item ∈ items, WellFormed item)
      (hlayout : Layout (items.map Json.raw) inner) :
      WellFormed (.array (openBracket :: (inner ++ [closeBracket])) items)
  | object {inner : Text} {members : List (Text × Json)} {pieces : List Text}
      (hmembers : ∀ member ∈ members, WellFormed member.2)
      (hkeys : (members.map Prod.fst).Nodup)
      (hpieces : List.Forall₂ (fun member piece => MemberText member.1 member.2.raw piece)
        members pieces)
      (hlayout : Layout pieces inner) :
      WellFormed (.object (openBrace :: (inner ++ [closeBrace])) members)

/-- The text does not begin with a blank. -/
def Tight (text : Text) : Prop := ∀ c, text.head? = some c → isSpace c = false

/-- The text does not go on with a digit. -/
def Ended (text : Text) : Prop := ∀ c, text.head? = some c → isDigit c = false

section

variable {blank text before piece : Text} {pieces : List Text} {c : Byte}

theorem isDigit_of_isSpace (h : isSpace c = true) : isDigit c = false := by
  simp only [isSpace, Bool.or_eq_true, decide_eq_true_eq] at h
  rcases h with ((h | h) | h) | h <;> rw [h] <;> decide

theorem blank_nil : Blank [] := fun _ h => by cases h

theorem Blank.append (hbefore : Blank before) (hblank : Blank blank) : Blank (before ++ blank) := by
  intro c hc
  rcases mem_append.mp hc with hc | hc
  · exact hbefore c hc
  · exact hblank c hc

theorem tight_cons (h : isSpace c = false) : Tight (c :: text) := by
  intro other ho
  rw [← Option.some.inj ho]
  exact h

/-- What is skipped is the blank in front. -/
theorem takeWhile_isSpace (hblank : Blank blank) (htight : Tight text) :
    (blank ++ text).takeWhile isSpace = blank := by
  induction blank with
  | nil =>
    cases text with
    | nil => rfl
    | cons c rest =>
      exact takeWhile_cons_of_neg (by rw [htight c rfl]; exact Bool.false_ne_true)
  | cons c rest ih =>
    rw [cons_append, takeWhile_cons_of_pos (hblank c (mem_cons_self ..)),
      ih fun other ho => hblank other (mem_cons_of_mem _ ho)]

/-- Every text is a blank and a text that does not begin with one. -/
theorem exists_blank (text : Text) :
    ∃ rest, text = text.takeWhile isSpace ++ rest ∧ Blank (text.takeWhile isSpace) ∧
      Tight rest := by
  refine ⟨text.dropWhile isSpace, takeWhile_append_dropWhile.symm, ?_, ?_⟩
  · exact all_eq_true.mp all_takeWhile
  intro c hc
  have h := head?_dropWhile_not isSpace text
  rw [hc] at h
  simpa using h

theorem Blank.eq_nil (hblank : Blank blank) (htight : Tight (blank ++ text)) : blank = [] := by
  cases blank with
  | nil => rfl
  | cons c rest =>
    have hspace := hblank c (mem_cons_self ..)
    rw [htight c rfl] at hspace
    cases hspace

theorem Blank.ended (hblank : Blank blank) (hc : isDigit c = false) :
    Ended (blank ++ c :: text) := by
  intro other ho
  cases blank with
  | nil =>
    rw [← Option.some.inj ho]
    exact hc
  | cons space rest =>
    rw [← Option.some.inj ho]
    exact isDigit_of_isSpace (hblank space (mem_cons_self ..))

theorem Layout.blank_append (hblank : Blank blank) (h : Layout (piece :: pieces) text) :
    Layout (piece :: pieces) (blank ++ text) := by
  cases h with
  | last hbefore hafter =>
    rw [← append_assoc]
    exact .last (hblank.append hbefore) hafter
  | more hbefore hafter h =>
    rw [← append_assoc]
    exact .more (hblank.append hbefore) hafter h

/-- The first piece stands behind a blank. -/
theorem Layout.strip (h : Layout (piece :: pieces) text) :
    ∃ blank rest, text = blank ++ (piece ++ rest) ∧ Blank blank ∧
      Layout (piece :: pieces) (piece ++ rest) := by
  cases h with
  | @last before _ after hbefore hafter =>
    exact ⟨before, after, rfl, hbefore, .last blank_nil hafter⟩
  | @more before _ after _ rest _ hbefore hafter h =>
    exact ⟨before, after ++ comma :: rest, rfl, hbefore, .more blank_nil hafter h⟩

end

namespace Json

theorem childrenInduction {P : Json → Prop} (null : P .null)
    (boolean : ∀ value, P (.boolean value)) (number : ∀ digits, P (.number digits))
    (string : ∀ body, P (.string body))
    (array : ∀ raw items, (∀ item ∈ items, P item) → P (.array raw items))
    (object : ∀ raw members, (∀ member ∈ members, P member.2) → P (.object raw members))
    (t : Json) : P t :=
  @Json.rec P (fun items => ∀ item ∈ items, P item) (fun members => ∀ m ∈ members, P m.2)
    (fun member => P member.2) null boolean number string array object
    (fun _ h => by cases h)
    (fun _ _ hhead htail => forall_mem_cons.mpr ⟨hhead, htail⟩)
    (fun _ h => by cases h)
    (fun _ _ hhead htail => forall_mem_cons.mpr ⟨hhead, htail⟩)
    (fun _ _ h => h) t

end Json

theorem Decimal.cons {digits : Text} (h : Decimal digits) :
    ∃ d rest, digits = d :: rest ∧ isDigit d = true := by
  cases digits with
  | nil => exact (h.nonempty rfl).elim
  | cons d rest => exact ⟨d, rest, rfl, h.numerals d (mem_cons_self ..)⟩

/-- Values begin with a character that is no blank. -/
theorem WellFormed.tight {t : Json} (h : WellFormed t) (rest : Text) : Tight (t.raw ++ rest) := by
  cases h with
  | null | string _ | array _ _ | object _ _ _ _ => exact tight_cons (by decide)
  | boolean value => cases value <;> exact tight_cons (by decide)
  | number hdigits _ =>
    obtain ⟨d, more, rfl, hd⟩ := hdigits.cons
    apply tight_cons
    cases hspace : isSpace d with
    | false => rfl
    | true =>
      rw [isDigit_of_isSpace hspace] at hd
      cases hd

theorem WellFormed.raw_ne_nil {t : Json} (h : WellFormed t) : t.raw ≠ [] := by
  cases h with
  | null | string _ | array _ _ | object _ _ _ _ => exact cons_ne_nil _ _
  | boolean value => cases value <;> exact cons_ne_nil _ _
  | number hdigits _ => exact hdigits.nonempty

/-- The pieces with commas between them. -/
def joined : List Text → Text
  | [] => []
  | [piece] => piece
  | piece :: rest => piece ++ comma :: joined rest

def memberOf (member : String × Json) : Text :=
  quote :: (ascii member.1 ++ quote :: colon :: member.2.raw)

/-- The object of these members, without blanks. -/
def objectOf (members : List (String × Json)) : Json :=
  .object (openBrace :: (joined (members.map memberOf) ++ [closeBrace]))
    (members.map fun member => (ascii member.1, member.2))

def arrayOf (items : List Json) : Json :=
  .array (openBracket :: (joined (items.map Json.raw) ++ [closeBracket])) items

/-- A character that stands for itself in a string. -/
def isPlain (c : Byte) : Bool := 0x20#8 ≤ c && c ≠ quote && c ≠ backslash

theorem layout_joined : ∀ pieces : List Text, Layout pieces (joined pieces)
  | [] => .none blank_nil
  | [piece] => by simpa [joined] using @Layout.last [] piece [] blank_nil blank_nil
  | _ :: next :: rest => .more blank_nil blank_nil (layout_joined (next :: rest))

theorem wellFormed_objectOf {members : List (String × Json)}
    (hkeys : (members.map fun member => ascii member.1).Nodup)
    (h : ∀ member ∈ members, StringBody (ascii member.1) ∧ WellFormed member.2) :
    WellFormed (objectOf members) := by
  refine .object ?_ ?_ ?_ (layout_joined _)
  · exact forall_mem_map.mpr fun member hm => (h member hm).2
  · rw [map_map]
    exact hkeys
  · exact forall₂_map_left_iff.mpr (forall₂_map_right_iff.mpr
      (forall₂_same.mpr fun member hm => .intro (h member hm).1 blank_nil blank_nil))

theorem stringBody_of_plain {text : Text} (h : text.all isPlain = true) : StringBody text := by
  induction text with
  | nil => exact .nil
  | cons c rest ih =>
    rw [all_cons, Bool.and_eq_true] at h
    obtain ⟨⟨hcontrol, hquote⟩, hescape⟩ := by simpa [isPlain] using h.1
    exact .plain hcontrol hquote hescape (ih h.2)

def digitByte (digit : ℕ) : Byte := BitVec.ofNat 8 (0x30 + digit)

def decimal (n : ℕ) : Text :=
  if n = 0 then [zero] else (Nat.digits 10 n).reverse.map digitByte

theorem digitByte_toNat {digit : ℕ} (h : digit < 10) : (digitByte digit).toNat = 0x30 + digit := by
  unfold digitByte
  rw [BitVec.toNat_ofNat]
  omega

theorem isDigit_digitByte {digit : ℕ} (h : digit < 10) : isDigit (digitByte digit) = true := by
  have htoNat := digitByte_toNat h
  simp only [isDigit, Bool.and_eq_true, decide_eq_true_eq, BitVec.le_def]
  rw [htoNat]
  change 0x30 ≤ 0x30 + digit ∧ 0x30 + digit ≤ 0x39
  omega

theorem digits_lt {n digit : ℕ} (h : digit ∈ (Nat.digits 10 n).reverse) : digit < 10 :=
  Nat.digits_lt_base (by omega) (mem_reverse.mp h)

theorem decimal_numerals (n : ℕ) : ∀ d ∈ decimal n, isDigit d = true := by
  intro d hd
  unfold decimal at hd
  split at hd
  · rw [mem_singleton.mp hd]
    decide
  · obtain ⟨digit, hdigit, rfl⟩ := mem_map.mp hd
    exact isDigit_digitByte (digits_lt hdigit)

end Laghu.JsonTexts
