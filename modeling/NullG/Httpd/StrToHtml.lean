/-
HTML text for scripts (`htnsp_strtohtml` of `httpd_nsp.c`).

The first pass counts the bytes of the result, the second one writes them. For a text in UTF-8 both are right as long as
the count fits into an `int` (`sized_iff`). The length of a sequence is taken from its first byte alone: elsewhere the
second pass reads behind the NUL, or takes a character for a part of the one before (`readsWithin_iff`).
-/

import NullG.Httpd.Html
import NullG.Lib.Entities

namespace NullG.Httpd.Htnsp

open NullG.Nsp NullG.Lib NullG.Mail

/-! ### The function -/

/-- `htmltags`. -/
def htmltags : List (Byte × List Byte) :=
  [(ch '"', bytes "&quot;"), (ch '\'', bytes "&apos;"), (ch '&', bytes "&amp;"), (ch '<', bytes "&lt;"),
    (ch '>', bytes "&gt;")]

/-- `isutf`: the length of a sequence, or 0. -/
def isutf (c : Byte) : Nat :=
  if 0xC2 ≤ c && c ≤ 0xDF then 2
  else if 0xE0 ≤ c && c ≤ 0xEF then 3
  else if 0xF0 ≤ c && c ≤ 0xF4 then 4
  else 0

/-- `strchr(" \r\n\t", c) == NULL && (c < 33 || c > 127)` -/
def isOther (c : Byte) : Bool := !(c == 0 || (bytes " \r\n\t").contains c) && (c < 33 || c > 127)

/-- The first pass: `outlen`. The cells that `i` jumps over are counted down first. -/
def countLoop : Nat → List Byte → UInt32 → UInt32
  | _, [], outlen => outlen
  | skip + 1, _ :: cp, outlen => countLoop skip cp outlen
  | 0, c :: cp, outlen =>
      match tagCode htmltags c with
      | some code => countLoop 0 cp (outlen + UInt32.ofNat code.length)
      | none =>
          if isutf c ≠ 0 then
            countLoop (isutf c - 1) cp (outlen + UInt32.ofNat ((if isutf c > 3 then 3 else isutf c) * 2 + 4))
          else if isOther c then countLoop 0 cp (outlen + 6)
          else countLoop 0 cp (outlen + 1)

/-- What is written at `dest + di`, with a NUL behind it or not. -/
structure Store where
  text : List Byte
  nul : Bool := false

/-- What the second pass takes in a round, and what it writes. -/
structure Round where
  taken : List Byte
  stores : List Store

/-- `%0*X`, of a number below `16 ^ width`. -/
def hexText : Nat → Nat → List Byte
  | 0, _ => []
  | width + 1, v => hexText width (v / 16) ++ [hexChar (UInt8.ofNat (v % 16))]

/-- `cp[i + 1 + k]`, with the NUL behind the string, or `none` behind that. -/
def behind (cp : List Byte) (k : Nat) : Option Byte := (cp ++ [0])[k]?

/-- `&#x`, a number and `;`. -/
def codePoint (width v : Nat) : List Store := [⟨bytes "&#x", false⟩, ⟨hexText width v, true⟩, ⟨bytes ";", false⟩]

/-- What is written for a byte that begins no sequence. -/
def otherStores (c : Byte) : List Store :=
  if isOther c then [⟨bytes "&#x" ++ [hexChar (c / 16), hexChar (c &&& 15), ch ';'], false⟩] else [⟨[c], false⟩]

/-- What is written in a round, at the byte `c` in front of `cp`. -/
def roundAt (c : Byte) (cp : List Byte) : Option (List Store) :=
  match tagCode htmltags c with
  | some code => some [⟨code, true⟩]
  | none =>
      if isutf c = 2 then do
        return codePoint 4 (((c &&& 0x1f).toNat <<< 6) + ((← behind cp 0) &&& 0x3f).toNat)
      else if isutf c = 3 then do
        return codePoint 6 (((c &&& 0x0f).toNat <<< 12) + (((← behind cp 0) &&& 0x3f).toNat <<< 6) +
          ((← behind cp 1) &&& 0x3f).toNat)
      else if isutf c = 4 then do
        return codePoint 6 (((c &&& 0x07).toNat <<< 18) + (((← behind cp 0) &&& 0x3f).toNat <<< 12) +
          (((← behind cp 1) &&& 0x3f).toNat <<< 6) + ((← behind cp 2) &&& 0x3f).toNat)
      else some (otherStores c)

/-- The rounds of the second pass, or `none` where a byte behind the NUL is read. The cells that `i` jumps over are
counted down first. -/
def rounds : Nat → List Byte → Option (List Round)
  | _, [] => some []
  | skip + 1, _ :: cp => rounds skip cp
  | 0, c :: cp => do
      let stores ← roundAt c cp
      return ⟨c :: cp.take (isutf c - 1), stores⟩ :: (← rounds (isutf c - 1) cp)

/-- What the second pass writes, and `di` behind it, or `none` where it leaves the block. -/
def writeStores : List Store → List Byte → Nat → Option (List Byte × Nat)
  | [], dest, di => some (dest, di)
  | store :: stores, dest, di => do
      let dest ← Memory.write dest di (store.text ++ if store.nul then [0] else [])
      writeStores stores dest (← Memory.int (di + store.text.length))

/-- The string of the result: its block, its size, and how many bytes the second pass has written. -/
structure HtmlString where
  cells : List Byte
  size : Nat
  written : Nat

/-- `htnsp_strtohtml` of a string. The block has `outlen + 1` bytes. -/
def strtohtml (str : List Byte) : Option HtmlString :=
  if str.length = 0 then some ⟨[], 0, 0⟩
  else do
    let outlen := countLoop 0 str 0
    let dest ← Memory.write (List.replicate (outlen + 1).toNat 0) outlen.toNat [0]
    let rs ← rounds 0 str
    let (dest, di) ← writeStores (rs.flatMap Round.stores) dest 0
    return ⟨dest, outlen.toNat, di⟩

/-! ### What an entity denotes -/

/-- The number of hexadecimal digits. -/
def hexValue (digits : List Byte) : Nat := digits.foldl (fun v d => v * 16 + (hexDigit d).toNat) 0

/-- The character with a number. -/
def scalar (v : Nat) : Option Char := if v.isValidChar then some (Char.ofNat v) else none

/-- What the entity with a name denotes: one of the characters that have a name, or the one with a number. -/
def denote (name : List Byte) : Option (List Byte) :=
  if (bytes "#x").isPrefixOf name then
    if (name.drop 2).all isxdigit && !(name.drop 2).isEmpty then
      (scalar (hexValue (name.drop 2))).map String.utf8EncodeChar
    else none
  else (htmltags.find? (·.2 == ch '&' :: name ++ [ch ';'])).map fun t => [t.1]

/-- What an HTML text denotes. There is nothing if an ampersand does not begin an entity. -/
def decodeHtml (text : List Byte) : Option (List Byte) := Entities.decode (ch '&') (ch ';') denote none text

/-- The second pass writes as many bytes as the first one has counted, and a NUL is behind them; no character that has a
name is among them, and they denote the text. -/
def SizedHtml (text : List Byte) : Prop :=
  ∃ r out, strtohtml text = some r ∧ r.size = out.length ∧ r.written = out.length ∧ r.cells.take r.size = out ∧
    (text ≠ [] → r.cells = out ++ [0]) ∧ (∀ c ∈ out, c ≠ ch '<' ∧ c ≠ ch '>' ∧ c ≠ ch '"' ∧ c ≠ ch '\'') ∧
    decodeHtml out = some text

/-- The bytes that are written for a character. -/
def charWidth (c : Char) : Nat :=
  if c.val.toNat ≤ 0x7f then
    match tagCode htmltags (UInt8.ofNat c.val.toNat) with
    | some code => code.length
    | none => if isOther (UInt8.ofNat c.val.toNat) then 6 else 1
  else if c.val.toNat ≤ 0x7ff then 8
  else 10

/-! ### Where the second pass reads -/

/-- A byte that goes on with a sequence. -/
def isContinuation (c : Byte) : Bool := 0x80 ≤ c && c ≤ 0xBF

/-- The second pass reads no byte behind the NUL, and what it takes in a round behind the first byte goes on with a
sequence. -/
def ReadsWithin (text : List Byte) : Prop :=
  ∃ rs, rounds 0 text = some rs ∧ ∀ r ∈ rs, ∀ c ∈ r.taken.tail, isContinuation c = true

/-- The bytes that the sequence at `c` has behind `c` are there, but for one at the end of the text, and go on with
it. -/
def FollowedBy (c : Byte) (cp : List Byte) : Prop :=
  isutf c ≤ cp.length + 2 ∧ ∀ d ∈ cp.take (isutf c - 1), isContinuation d = true

section Reads

variable {c : Byte} {cp : List Byte} {k : Nat}

theorem isutf_cases (c : Byte) : isutf c = 0 ∨ isutf c = 2 ∨ isutf c = 3 ∨ isutf c = 4 := by
  unfold isutf
  split_ifs <;> simp

/-- A character that has a name begins no sequence, and neither does a byte that goes on with one. -/
theorem isutf_eq_zero (h : (tagCode htmltags c).isSome = true ∨ isContinuation c = true) : isutf c = 0 := by
  have hall := byte_all (p := fun c => !((tagCode htmltags c).isSome || isContinuation c) || isutf c == 0)
    (by decide +kernel) c
  have hc : ((tagCode htmltags c).isSome || isContinuation c) = true := Bool.or_eq_true_iff.mpr h
  rw [hc] at hall
  exact eq_of_beq hall

theorem behind_some (h : k ≤ cp.length) : ∃ b, behind cp k = some b :=
  ⟨_, List.getElem?_eq_getElem (by rw [List.length_append, List.length_singleton]; omega)⟩

theorem behind_none (h : cp.length < k) : behind cp k = none :=
  List.getElem?_eq_none (by rw [List.length_append, List.length_singleton]; omega)

/-- A round reads nothing behind the NUL if the sequence ends there at the latest. -/
theorem roundAt_some (c : Byte) (cp : List Byte) :
    (∃ stores, roundAt c cp = some stores) ↔ isutf c ≤ cp.length + 2 := by
  obtain ⟨b₀, h₀⟩ := behind_some (Nat.zero_le cp.length)
  cases htag : tagCode htmltags c with
  | some code =>
      rw [roundAt, htag, isutf_eq_zero (.inl (by rw [htag]; rfl))]
      exact iff_of_true ⟨_, rfl⟩ (Nat.zero_le _)
  | none =>
      simp only [roundAt, htag, h₀, Option.bind_eq_bind, Option.bind_some]
      rcases isutf_cases c with hutf | hutf | hutf | hutf
      · simp [hutf]
      · simp [hutf]
      · rw [hutf]
        by_cases h₁ : 1 ≤ cp.length
        · obtain ⟨b₁, h₁'⟩ := behind_some h₁
          simpa [h₁'] using h₁
        · simpa [behind_none (Nat.not_le.mp h₁)] using h₁
      · rw [hutf]
        by_cases h₂ : 2 ≤ cp.length
        · obtain ⟨b₁, h₁'⟩ := behind_some (Nat.le_of_succ_le h₂)
          obtain ⟨b₂, h₂'⟩ := behind_some h₂
          simpa [h₁', h₂'] using h₂
        · cases behind cp 1 <;> simpa [behind_none (Nat.not_le.mp h₂)] using h₂

/-- The rounds read as they should exactly if every sequence from the first round on is followed by its bytes. -/
theorem rounds_iff (skip : Nat) (cp : List Byte) :
    (∃ rs, rounds skip cp = some rs ∧ ∀ r ∈ rs, ∀ c ∈ r.taken.tail, isContinuation c = true) ↔
      ∀ q c rest, cp = q ++ c :: rest → skip ≤ q.length → FollowedBy c rest := by
  induction cp generalizing skip with
  | nil =>
      refine iff_of_true ⟨[], by rw [rounds], by simp⟩ fun q c rest h => ?_
      cases q <;> cases h
  | cons c cp ih =>
      cases skip with
      | succ skip =>
          rw [rounds, ih]
          constructor
          · intro h q d rest heq hle
            cases q with
            | nil => exact absurd hle (Nat.not_succ_le_zero _)
            | cons e q =>
                cases heq
                exact h q d rest rfl (Nat.le_of_succ_le_succ hle)
          · intro h q d rest heq hle
            exact h (c :: q) d rest (by rw [heq]; rfl) (Nat.succ_le_succ hle)
      | zero =>
          have hround : (∃ rs, rounds 0 (c :: cp) = some rs ∧ ∀ r ∈ rs, ∀ c ∈ r.taken.tail, isContinuation c = true) ↔
              FollowedBy c cp ∧ ∃ rs, rounds (isutf c - 1) cp = some rs ∧
                ∀ r ∈ rs, ∀ c ∈ r.taken.tail, isContinuation c = true := by
            rw [rounds, FollowedBy, ← roundAt_some]
            constructor
            · rintro ⟨rs, hrun, hrs⟩
              obtain ⟨stores, hstores, hrun⟩ := Option.bind_eq_some_iff.mp hrun
              obtain ⟨rs', hrs', hrun⟩ := Option.bind_eq_some_iff.mp hrun
              obtain rfl := Option.some.inj hrun
              obtain ⟨hfirst, hrest⟩ := List.forall_mem_cons.mp hrs
              exact ⟨⟨⟨stores, hstores⟩, hfirst⟩, rs', hrs', hrest⟩
            · rintro ⟨⟨⟨stores, hstores⟩, hfirst⟩, rs', hrs', hrest⟩
              refine ⟨⟨c :: cp.take (isutf c - 1), stores⟩ :: rs', ?_, List.forall_mem_cons.mpr ⟨hfirst, hrest⟩⟩
              rw [hstores, hrs']
              rfl
          rw [hround, ih]
          constructor
          · rintro ⟨hfirst, hrest⟩ q d rest heq -
            cases q with
            | nil =>
                cases heq
                exact hfirst
            | cons e q =>
                cases heq
                by_cases hle : isutf c - 1 ≤ q.length
                · exact hrest q d rest rfl hle
                · -- the byte is one of those that are jumped over
                  have hmem : d ∈ (q ++ d :: rest).take (isutf c - 1) := by
                    rw [List.take_append]
                    refine List.mem_append_right _ ?_
                    obtain ⟨n, hn⟩ : ∃ n, isutf c - 1 - q.length = n + 1 := ⟨isutf c - 1 - q.length - 1, by omega⟩
                    rw [hn, List.take_succ_cons]
                    exact List.mem_cons_self
                  have hzero := isutf_eq_zero (.inr (hfirst.2 d hmem))
                  refine ⟨by omega, ?_⟩
                  rw [hzero]
                  simp
          · intro h
            exact ⟨h [] c cp rfl (Nat.zero_le _), fun q d rest heq _ => h (c :: q) d rest (by rw [heq]; rfl)
              (Nat.zero_le _)⟩

end Reads

/-- The second pass reads as it should exactly if every first byte of a sequence is followed by the others. -/
theorem readsWithin_iff (text : List Byte) :
    ReadsWithin text ↔ ∀ q c rest, text = q ++ c :: rest → FollowedBy c rest := by
  rw [ReadsWithin, rounds_iff]
  exact ⟨fun h q c rest heq => h q c rest heq (Nat.zero_le _), fun h q c rest heq _ => h q c rest heq⟩

/-- The character behind a first byte is lost. -/
theorem not_readsWithin_cut : ¬ ReadsWithin [0xC3, ch '<'] := by
  rintro ⟨rs, hrun, hrs⟩
  have hbad : (rounds 0 [0xC3, ch '<']).map (fun rs => rs.all fun r => r.taken.tail.all isContinuation) =
      some false := by decide +kernel
  rw [hrun, Option.map_some, Option.some.injEq, List.all_eq_false] at hbad
  obtain ⟨r, hr, hbad⟩ := hbad
  exact hbad (List.all_eq_true.mpr (hrs r hr))

/-! ### The text of a character -/

/-- The text that is written. -/
def storesText (stores : List Store) : List Byte := stores.flatMap Store.text

/-- What is written for a character. -/
def charStores (c : Char) : List Store :=
  if c.val.toNat ≤ 0x7f then
    match tagCode htmltags (UInt8.ofNat c.val.toNat) with
    | some code => [⟨code, true⟩]
    | none => otherStores (UInt8.ofNat c.val.toNat)
  else if c.val.toNat ≤ 0x7ff then codePoint 4 c.val.toNat
  else codePoint 6 c.val.toNat

/-- The text of a character. -/
def charHtml (c : Char) : List Byte := storesText (charStores c)

section Chars

variable {c : Char} {cp : List Byte} {width v : Nat}

theorem tagCode_none {b : Byte} (h : isutf b ≠ 0) : tagCode htmltags b = none := by
  cases htag : tagCode htmltags b with
  | none => rfl
  | some code => exact absurd (isutf_eq_zero (.inl (by rw [htag]; rfl))) h

/-- The bits of a sequence behind its first byte. -/
theorem tail_bits {n : Nat} (h : n < 64) : ((UInt8.ofNat (n + 0x80)) &&& 0x3f).toNat = n := by
  have hand : (0x3f : Byte).toNat = 2 ^ 6 - 1 := rfl
  rw [UInt8.toNat_and, hand, Nat.and_two_pow_sub_one_eq_mod, UInt8.toNat_ofNat']
  omega

/-- The bits of a first byte. -/
theorem head_bits (mask : Byte) (k : Nat) {n lead : Nat} (hmask : mask.toNat = 2 ^ k - 1) (hn : n < 2 ^ k)
    (hlead : lead % 2 ^ k = 0) (hbyte : n + lead < 256) : ((UInt8.ofNat (n + lead)) &&& mask).toNat = n := by
  rw [UInt8.toNat_and, hmask, Nat.and_two_pow_sub_one_eq_mod, UInt8.toNat_ofNat', Nat.mod_eq_of_lt hbyte, Nat.add_mod,
    hlead, Nat.add_zero, Nat.mod_mod, Nat.mod_eq_of_lt hn]

/-- The length of a sequence is that of its first byte. -/
theorem isutf_ofNat {n : Nat} (h : n < 256) : isutf (UInt8.ofNat n) =
    if 0xC2 ≤ n ∧ n ≤ 0xDF then 2 else if 0xE0 ≤ n ∧ n ≤ 0xEF then 3 else if 0xF0 ≤ n ∧ n ≤ 0xF4 then 4 else 0 := by
  have hnat : (UInt8.ofNat n).toNat = n := by
    rw [UInt8.toNat_ofNat']
    omega
  simp only [isutf, UInt8.le_iff_toNat_le, hnat, Bool.and_eq_true, decide_eq_true_eq]
  rfl

/-- A character is a byte below 128, or a sequence whose bits are its number. -/
theorem utf8_cases (c : Char) :
    (c.val.toNat ≤ 0x7f ∧ String.utf8EncodeChar c = [UInt8.ofNat c.val.toNat]) ∨
    (0x7f < c.val.toNat ∧ c.val.toNat ≤ 0x7ff ∧ ∃ b₀ b₁, String.utf8EncodeChar c = [b₀, b₁] ∧ isutf b₀ = 2 ∧
      ((b₀ &&& 0x1f).toNat <<< 6) + (b₁ &&& 0x3f).toNat = c.val.toNat) ∨
    (0x7ff < c.val.toNat ∧ ∃ b₀ b₁ b₂, String.utf8EncodeChar c = [b₀, b₁, b₂] ∧ isutf b₀ = 3 ∧
      ((b₀ &&& 0x0f).toNat <<< 12) + ((b₁ &&& 0x3f).toNat <<< 6) + (b₂ &&& 0x3f).toNat = c.val.toNat) ∨
    (0x7ff < c.val.toNat ∧ ∃ b₀ b₁ b₂ b₃, String.utf8EncodeChar c = [b₀, b₁, b₂, b₃] ∧ isutf b₀ = 4 ∧
      ((b₀ &&& 0x07).toNat <<< 18) + ((b₁ &&& 0x3f).toNat <<< 12) + ((b₂ &&& 0x3f).toNat <<< 6) +
        (b₃ &&& 0x3f).toNat = c.val.toNat) := by
  have hvalid : c.val.toNat < 0x110000 := by
    rcases c.valid with h | h <;> omega
  unfold String.utf8EncodeChar
  generalize c.val.toNat = v at hvalid
  dsimp only
  by_cases h₁ : v ≤ 0x7f
  · exact .inl ⟨h₁, if_pos h₁⟩
  · rw [if_neg h₁]
    by_cases h₂ : v ≤ 0x7ff
    · rw [if_pos h₂]
      refine .inr (.inl ⟨by omega, h₂, _, _, rfl, ?_, ?_⟩)
      · rw [isutf_ofNat (by omega), if_pos (by omega)]
      · rw [head_bits 0x1f 5 rfl (by omega) (by omega) (by omega), tail_bits (by omega),
          Nat.shiftLeft_eq]
        omega
    · rw [if_neg h₂]
      by_cases h₃ : v ≤ 0xffff
      · rw [if_pos h₃]
        refine .inr (.inr (.inl ⟨by omega, _, _, _, rfl, ?_, ?_⟩))
        · rw [isutf_ofNat (by omega), if_neg (by omega), if_pos (by omega)]
        · rw [head_bits 0x0f 4 rfl (by omega) (by omega) (by omega), tail_bits (by omega),
            tail_bits (by omega), Nat.shiftLeft_eq, Nat.shiftLeft_eq]
          omega
      · rw [if_neg h₃]
        refine .inr (.inr (.inr ⟨by omega, _, _, _, _, rfl, ?_, ?_⟩))
        · rw [isutf_ofNat (by omega), if_neg (by omega), if_neg (by omega), if_pos (by omega)]
        · rw [head_bits 0x07 3 rfl (by omega) (by omega) (by omega), tail_bits (by omega),
            tail_bits (by omega), tail_bits (by omega), Nat.shiftLeft_eq, Nat.shiftLeft_eq, Nat.shiftLeft_eq]
          omega

/-- A round takes a character, and writes its text. -/
theorem rounds_char (c : Char) (cp : List Byte) : rounds 0 (String.utf8EncodeChar c ++ cp) =
    (rounds 0 cp).map (⟨String.utf8EncodeChar c, charStores c⟩ :: ·) := by
  rcases utf8_cases c with ⟨hv, henc⟩ | ⟨hlo, hhi, b₀, b₁, henc, hutf, hbits⟩ | ⟨hlo, b₀, b₁, b₂, henc, hutf, hbits⟩ |
    ⟨hlo, b₀, b₁, b₂, b₃, henc, hutf, hbits⟩
  · have hutf : isutf (UInt8.ofNat c.val.toNat) = 0 := by
      rw [isutf_ofNat (by omega), if_neg (by omega), if_neg (by omega), if_neg (by omega)]
    have hround : roundAt (UInt8.ofNat c.val.toNat) cp = some (charStores c) := by
      rw [roundAt, charStores, if_pos hv, hutf]
      cases tagCode htmltags (UInt8.ofNat c.val.toNat) <;> rfl
    rw [henc, List.singleton_append, rounds, hround, hutf]
    cases rounds 0 cp <;> rfl
  · have hround : roundAt b₀ (b₁ :: cp) = some (charStores c) := by
      have h₀ : behind (b₁ :: cp) 0 = some b₁ := rfl
      have hstores : charStores c = codePoint 4 c.val.toNat := by rw [charStores, if_neg (by omega), if_pos hhi]
      rw [roundAt, tagCode_none (by omega), hstores]
      simp only [hutf, if_true, h₀, Option.bind_eq_bind, Option.bind_some, hbits]
      rfl
    rw [henc, List.cons_append, List.cons_append, List.nil_append, rounds, hround, hutf]
    cases hrest : rounds 0 cp <;> simp [rounds, hrest]
  · have hround : roundAt b₀ (b₁ :: b₂ :: cp) = some (charStores c) := by
      have h₀ : behind (b₁ :: b₂ :: cp) 0 = some b₁ := rfl
      have h₁ : behind (b₁ :: b₂ :: cp) 1 = some b₂ := rfl
      have hstores : charStores c = codePoint 6 c.val.toNat := by
        rw [charStores, if_neg (by omega), if_neg (by omega)]
      rw [roundAt, tagCode_none (by omega), hstores]
      simp only [hutf, Nat.reduceEqDiff, if_false, if_true, h₀, h₁, Option.bind_eq_bind, Option.bind_some, hbits]
      rfl
    rw [henc, List.cons_append, List.cons_append, List.cons_append, List.nil_append, rounds, hround, hutf]
    cases hrest : rounds 0 cp <;> simp [rounds, hrest]
  · have hround : roundAt b₀ (b₁ :: b₂ :: b₃ :: cp) = some (charStores c) := by
      have h₀ : behind (b₁ :: b₂ :: b₃ :: cp) 0 = some b₁ := rfl
      have h₁ : behind (b₁ :: b₂ :: b₃ :: cp) 1 = some b₂ := rfl
      have h₂ : behind (b₁ :: b₂ :: b₃ :: cp) 2 = some b₃ := rfl
      have hstores : charStores c = codePoint 6 c.val.toNat := by
        rw [charStores, if_neg (by omega), if_neg (by omega)]
      rw [roundAt, tagCode_none (by omega), hstores]
      simp only [hutf, Nat.reduceEqDiff, if_false, if_true, h₀, h₁, h₂, Option.bind_eq_bind, Option.bind_some, hbits]
      rfl
    rw [henc, List.cons_append, List.cons_append, List.cons_append, List.cons_append, List.nil_append, rounds, hround,
      hutf]
    cases hrest : rounds 0 cp <;> simp [rounds, hrest]

/-- The first pass counts the width of a character. -/
theorem countLoop_char (c : Char) (cp : List Byte) (outlen : UInt32) :
    countLoop 0 (String.utf8EncodeChar c ++ cp) outlen = countLoop 0 cp (outlen + UInt32.ofNat (charWidth c)) := by
  rcases utf8_cases c with ⟨hv, henc⟩ | ⟨hlo, hhi, b₀, b₁, henc, hutf, hbits⟩ | ⟨hlo, b₀, b₁, b₂, henc, hutf, hbits⟩ |
    ⟨hlo, b₀, b₁, b₂, b₃, henc, hutf, hbits⟩
  · have hutf : isutf (UInt8.ofNat c.val.toNat) = 0 := by
      rw [isutf_ofNat (by omega), if_neg (by omega), if_neg (by omega), if_neg (by omega)]
    rw [henc, List.singleton_append, countLoop, charWidth, if_pos hv, hutf]
    cases tagCode htmltags (UInt8.ofNat c.val.toNat) with
    | some code => rfl
    | none =>
        dsimp only
        rw [if_neg (not_not.mpr rfl)]
        split <;> rfl
  · have htag : tagCode htmltags b₀ = none := tagCode_none (by omega)
    rw [henc, charWidth, if_neg (by omega), if_pos hhi]
    simp [countLoop, htag, hutf]
  · have htag : tagCode htmltags b₀ = none := tagCode_none (by omega)
    rw [henc, charWidth, if_neg (by omega), if_neg (by omega)]
    simp [countLoop, htag, hutf]
  · have htag : tagCode htmltags b₀ = none := tagCode_none (by omega)
    rw [henc, charWidth, if_neg (by omega), if_neg (by omega)]
    simp [countLoop, htag, hutf]

/-! ### Numbers in hexadecimal -/

theorem hexText_length (width v : Nat) : (hexText width v).length = width := by
  induction width generalizing v with
  | zero => rfl
  | succ width ih => rw [hexText, List.length_append, ih, List.length_singleton]

theorem hexText_digits (width v : Nat) : ∀ d ∈ hexText width v, isxdigit d = true := by
  have hdigit : ∀ n < 16, isxdigit (hexChar (UInt8.ofNat n)) = true := by decide +kernel
  induction width generalizing v with
  | zero => exact fun d hd => absurd hd List.not_mem_nil
  | succ width ih =>
      intro d hd
      rcases List.mem_append.mp hd with hd | hd
      · exact ih (v / 16) d hd
      · rw [List.mem_singleton.mp hd]
        exact hdigit _ (Nat.mod_lt v (by decide))

theorem hexValue_hexText (h : v < 16 ^ width) : hexValue (hexText width v) = v := by
  have hdigit : ∀ n < 16, (hexDigit (hexChar (UInt8.ofNat n))).toNat = n := by decide +kernel
  induction width generalizing v with
  | zero =>
      have hzero : v = 0 := by simpa using h
      rw [hzero]
      rfl
  | succ width ih =>
      have hv : v / 16 < 16 ^ width := Nat.div_lt_of_lt_mul (by rwa [Nat.pow_succ, Nat.mul_comm] at h)
      have hrest := ih hv
      unfold hexValue at hrest ⊢
      rw [hexText, List.foldl_append, hrest, List.foldl_cons, List.foldl_nil, hdigit _ (Nat.mod_lt v (by decide))]
      omega

/-- A digit is no character that has a name, and no end of a name. -/
theorem isxdigit_plain {d : Byte} (h : isxdigit d = true) :
    d ≠ ch '<' ∧ d ≠ ch '>' ∧ d ≠ ch '"' ∧ d ≠ ch '\'' ∧ d ≠ ch ';' := by
  have hall := byte_all (p := fun d => !isxdigit d || (d != ch '<' && d != ch '>' && d != ch '"' && d != ch '\'' &&
    d != ch ';')) (by decide +kernel) d
  simpa [h, and_assoc] using hall

theorem codePoint_text (width v : Nat) :
    storesText (codePoint width v) = ch '&' :: (bytes "#x" ++ hexText width v) ++ [ch ';'] := by
  simp [storesText, codePoint, bytes]

theorem scalar_toNat (c : Char) : scalar c.val.toNat = some c := by
  have hvalid : c.val.toNat.isValidChar := c.valid
  rw [scalar, if_pos hvalid]
  exact congrArg some (Char.ofNat_toNat c)

/-- An entity with a number denotes the character. -/
theorem denote_codePoint (hwidth : 0 < width) (h : c.val.toNat < 16 ^ width) :
    denote (bytes "#x" ++ hexText width c.val.toNat) = some (String.utf8EncodeChar c) := by
  have hdrop : (bytes "#x" ++ hexText width c.val.toNat).drop 2 = hexText width c.val.toNat := rfl
  have hpre : (bytes "#x").isPrefixOf (bytes "#x" ++ hexText width c.val.toNat) = true := by
    rw [List.isPrefixOf_iff_prefix]
    exact List.prefix_append _ _
  have hall : (hexText width c.val.toNat).all isxdigit = true := List.all_eq_true.mpr (hexText_digits _ _)
  have hne : (hexText width c.val.toNat).isEmpty = false := by
    rw [List.isEmpty_eq_false_iff, ← List.length_pos_iff, hexText_length]
    exact hwidth
  have hdigits : ((hexText width c.val.toNat).all isxdigit && !(hexText width c.val.toNat).isEmpty) = true := by
    rw [hall, hne]
    rfl
  rw [denote, if_pos hpre, hdrop, if_pos hdigits, hexValue_hexText h, scalar_toNat]
  rfl

/-- What is written for a byte below 128 that is not NUL. -/
def asciiHtml (b : Byte) : List Byte :=
  storesText (match tagCode htmltags b with
    | some code => [⟨code, true⟩]
    | none => otherStores b)

/-- The text of a byte stands for it: the byte is no ampersand, or an entity denotes it. -/
theorem asciiHtml_cases {b : Byte} (hb : b < 128) (h0 : b ≠ 0) :
    (asciiHtml b = [b] ∧ b ≠ ch '&' ∨ ∃ name, asciiHtml b = ch '&' :: name ++ [ch ';'] ∧ ch ';' ∉ name ∧
      denote name = some [b]) ∧
    ∀ d ∈ asciiHtml b, d ≠ ch '<' ∧ d ≠ ch '>' ∧ d ≠ ch '"' ∧ d ≠ ch '\'' := by
  have hall := byte_all (p := fun b => !(b < 128) || b == 0 ||
    (((asciiHtml b == [b] && b != ch '&') || (asciiHtml b == ch '&' :: ((asciiHtml b).drop 1).dropLast ++ [ch ';'] &&
      !(((asciiHtml b).drop 1).dropLast).contains (ch ';') && denote ((asciiHtml b).drop 1).dropLast == some [b])) &&
    (asciiHtml b).all fun d => d != ch '<' && d != ch '>' && d != ch '"' && d != ch '\'')) (by decide +kernel) b
  simp only [hb, decide_true, Bool.not_true, beq_eq_false_iff_ne.mpr h0, Bool.false_or, Bool.and_eq_true,
    Bool.or_eq_true, beq_iff_eq, bne_iff_ne, Bool.not_eq_true', List.all_eq_true, List.contains_eq_mem,
    decide_eq_false_iff_not] at hall
  obtain ⟨hstands, hclean⟩ := hall
  refine ⟨hstands.imp_right fun h => ⟨_, h.1.1, h.1.2, h.2⟩, fun d hd => ?_⟩
  obtain ⟨⟨⟨hlt, hgt⟩, hquot⟩, hapos⟩ := hclean d hd
  exact ⟨hlt, hgt, hquot, hapos⟩

/-- The text of a character stands for it, and has no character that has a name. -/
theorem charHtml_stands (h0 : c.val.toNat ≠ 0) :
    Entities.Stands (ch '&') (ch ';') denote (charHtml c) (String.utf8EncodeChar c) ∧
      ∀ d ∈ charHtml c, d ≠ ch '<' ∧ d ≠ ch '>' ∧ d ≠ ch '"' ∧ d ≠ ch '\'' := by
  have hnumber : ∀ {width}, 0 < width → c.val.toNat < 16 ^ width →
      charHtml c = storesText (codePoint width c.val.toNat) →
      Entities.Stands (ch '&') (ch ';') denote (charHtml c) (String.utf8EncodeChar c) ∧
        ∀ d ∈ charHtml c, d ≠ ch '<' ∧ d ≠ ch '>' ∧ d ≠ ch '"' ∧ d ≠ ch '\'' := by
    intro width hwidth hv htext
    rw [htext, codePoint_text]
    have hdigits : ∀ d ∈ hexText width c.val.toNat, _ := fun d hd => isxdigit_plain (hexText_digits _ _ d hd)
    have hmark : ∀ d ∈ bytes "#x", d ≠ ch '<' ∧ d ≠ ch '>' ∧ d ≠ ch '"' ∧ d ≠ ch '\'' ∧ d ≠ ch ';' := by
      intro d hd
      rcases List.mem_pair.mp hd with rfl | rfl <;> decide
    have hname : ∀ d ∈ bytes "#x" ++ hexText width c.val.toNat,
        d ≠ ch '<' ∧ d ≠ ch '>' ∧ d ≠ ch '"' ∧ d ≠ ch '\'' ∧ d ≠ ch ';' :=
      List.forall_mem_append.mpr ⟨hmark, hdigits⟩
    refine ⟨Entities.stands_entity (fun hsemi => (hname _ hsemi).2.2.2.2 rfl) (denote_codePoint hwidth hv), ?_⟩
    refine List.forall_mem_append.mpr ⟨List.forall_mem_cons.mpr ⟨by decide, fun d hd => ?_⟩,
      List.forall_mem_singleton.mpr (by decide)⟩
    obtain ⟨hlt, hgt, hquot, hapos, -⟩ := hname d hd
    exact ⟨hlt, hgt, hquot, hapos⟩
  have hvalid : c.val.toNat < 0x110000 := by
    rcases c.valid with h | h <;> omega
  by_cases h₁ : c.val.toNat ≤ 0x7f
  · have htext : charHtml c = asciiHtml (UInt8.ofNat c.val.toNat) := by
      rw [charHtml, charStores, if_pos h₁]
      rfl
    have henc : String.utf8EncodeChar c = [UInt8.ofNat c.val.toNat] := if_pos h₁
    have hnat : (UInt8.ofNat c.val.toNat).toNat = c.val.toNat := by
      rw [UInt8.toNat_ofNat']
      omega
    have hlt : UInt8.ofNat c.val.toNat < 128 := by
      rw [UInt8.lt_iff_toNat_lt, hnat]
      exact Nat.lt_succ_of_le h₁
    have hne : UInt8.ofNat c.val.toNat ≠ 0 := fun hzero => h0 (by rw [← hnat, hzero]; rfl)
    obtain ⟨hcases, hclean⟩ := asciiHtml_cases hlt hne
    rw [htext, henc]
    refine ⟨?_, hclean⟩
    rcases hcases with ⟨hself, hamp⟩ | ⟨name, hentity, hsemi, hname⟩
    · rw [hself]
      exact Entities.stands_plain hamp
    · rw [hentity]
      exact Entities.stands_entity hsemi hname
  · by_cases h₂ : c.val.toNat ≤ 0x7ff
    · exact @hnumber 4 (by decide) (by omega) (by rw [charHtml, charStores, if_neg h₁, if_pos h₂])
    · exact @hnumber 6 (by decide) (by omega) (by rw [charHtml, charStores, if_neg h₁, if_neg h₂])

theorem charHtml_length (c : Char) : (charHtml c).length = charWidth c := by
  have hnumber : ∀ width v, (storesText (codePoint width v)).length = width + 4 := by
    intro width v
    simp [storesText, codePoint, hexText_length, bytes]
  unfold charHtml charStores charWidth
  split
  · split
    · simp [storesText]
    · unfold otherStores
      split <;> rfl
  · split <;> exact hnumber _ _

end Chars

/-! ### The passes -/

section Passes

variable {l : List Char} {stores : List Store} {out gap : List Byte}

/-- The bytes that are written for a text. -/
def htmlWidth (l : List Char) : Nat := (l.map charWidth).sum

theorem rounds_chars (l : List Char) : rounds 0 (l.flatMap String.utf8EncodeChar) =
    some (l.map fun c => ⟨String.utf8EncodeChar c, charStores c⟩) := by
  induction l with
  | nil => rfl
  | cons c l ih =>
      rw [List.flatMap_cons, rounds_char, ih]
      rfl

theorem countLoop_chars (l : List Char) (outlen : UInt32) :
    countLoop 0 (l.flatMap String.utf8EncodeChar) outlen = outlen + UInt32.ofNat (htmlWidth l) := by
  induction l generalizing outlen with
  | nil =>
      rw [List.flatMap_nil, countLoop]
      exact (UInt32.add_zero outlen).symm
  | cons c l ih =>
      rw [List.flatMap_cons, countLoop_char, ih, htmlWidth, htmlWidth, List.map_cons, List.sum_cons, UInt32.ofNat_add,
        UInt32.add_assoc]

/-- The second pass writes its text and leaves the NUL in the last cell, if there are cells enough. -/
theorem writeStores_run (hgap : (storesText stores).length ≤ gap.length)
    (hint : out.length + (storesText stores).length < 2 ^ 31) :
    ∃ gap', gap'.length + (storesText stores).length = gap.length ∧
      writeStores stores (out ++ (gap ++ [0])) out.length =
        some (out ++ storesText stores ++ (gap' ++ [0]), out.length + (storesText stores).length) := by
  induction stores generalizing out gap with
  | nil => exact ⟨gap, rfl, by simp [writeStores, storesText]⟩
  | cons store stores ih =>
      have hcount : (storesText (store :: stores)).length = store.text.length + (storesText stores).length := by
        rw [storesText, List.flatMap_cons, List.length_append]
        rfl
      rw [hcount] at hgap hint
      -- the text goes over cells of the gap, the NUL over the one behind them
      obtain ⟨gap₁, hgap₁, hwrite⟩ : ∃ gap₁, gap₁.length + store.text.length = gap.length ∧
          Memory.write (out ++ (gap ++ [0])) out.length (store.text ++ if store.nul then [0] else []) =
            some (out ++ store.text ++ (gap₁ ++ [0])) := by
        have hold : (gap.take store.text.length).length = store.text.length := by
          rw [List.length_take]
          omega
        have hsplit := List.take_append_drop store.text.length gap
        have hdrop : (gap.drop store.text.length).length + store.text.length = gap.length := by
          rw [List.length_drop]
          omega
        cases store.nul with
        | false =>
            refine ⟨gap.drop store.text.length, hdrop, ?_⟩
            have hover := Memory.write_over store.text _ hold.symm out (gap.drop store.text.length ++ [0])
            rw [← List.append_assoc (gap.take store.text.length), hsplit] at hover
            rw [if_neg Bool.false_ne_true, List.append_nil, hover, List.append_assoc]
        | true =>
            rw [if_pos rfl]
            cases hrest : gap.drop store.text.length with
            | nil =>
                rw [hrest] at hsplit hdrop
                rw [List.append_nil] at hsplit
                refine ⟨[], hdrop, ?_⟩
                have hover := Memory.write_over (store.text ++ [0]) (gap ++ [0])
                  (by rw [List.length_append, List.length_append, ← hdrop, List.length_nil, Nat.zero_add]) out []
                rw [List.append_nil, List.append_nil] at hover
                rw [hover, List.append_assoc, List.nil_append]
            | cons g gs =>
                rw [hrest] at hsplit hdrop
                refine ⟨0 :: gs, hdrop, ?_⟩
                have hover := Memory.write_over (store.text ++ [0]) (gap.take store.text.length ++ [g])
                  (by rw [List.length_append, List.length_append, hold]; rfl) out (gs ++ [0])
                have hcells : gap.take store.text.length ++ [g] ++ (gs ++ [0]) = gap ++ [0] := by
                  calc gap.take store.text.length ++ [g] ++ (gs ++ [0]) =
                      gap.take store.text.length ++ g :: gs ++ [0] := by simp
                    _ = gap ++ [0] := by rw [hsplit]
                rw [hcells] at hover
                rw [hover]
                simp
      have hlen : (out ++ store.text).length = out.length + store.text.length := List.length_append
      obtain ⟨gap', hgap', hrun⟩ := @ih (out ++ store.text) gap₁ (by omega) (by omega)
      refine ⟨gap', by omega, ?_⟩
      have hfits : Memory.int (out.length + store.text.length) = some (out.length + store.text.length) :=
        if_pos (by omega)
      rw [writeStores, hwrite, Option.bind_eq_bind, Option.bind_some, hfits, Option.bind_eq_bind, Option.bind_some,
        ← hlen, hrun, hcount, hlen, storesText, storesText, List.flatMap_cons, List.append_assoc out, Nat.add_assoc]

/-- A count that an `int` does not hold is not reached. -/
theorem writeStores_overflow {dest : List Byte} {di : Nat} (hdi : di < 2 ^ 31)
    (h : 2 ^ 31 ≤ di + (storesText stores).length) : writeStores stores dest di = none := by
  induction stores generalizing dest di with
  | nil =>
      rw [storesText, List.flatMap_nil, List.length_nil] at h
      omega
  | cons store stores ih =>
      rw [storesText, List.flatMap_cons, List.length_append, ← Nat.add_assoc] at h
      rw [writeStores]
      cases Memory.write dest di (store.text ++ if store.nul then [0] else []) with
      | none => rfl
      | some dest' =>
          rw [Option.bind_eq_bind, Option.bind_some]
          by_cases hint : di + store.text.length < 2 ^ 31
          · rw [Memory.int, if_pos hint]
            exact ih hint h
          · rw [Memory.int, if_neg hint]
            rfl

end Passes

/-- The bytes that both passes are about. -/
theorem storesText_chars (l : List Char) :
    storesText ((l.map fun c => (⟨String.utf8EncodeChar c, charStores c⟩ : Round)).flatMap Round.stores) =
      l.flatMap charHtml := by
  rw [storesText, List.flatMap_map, List.flatMap_assoc]
  rfl

theorem charHtmls_length (l : List Char) : (l.flatMap charHtml).length = htmlWidth l := by
  rw [List.length_flatMap, htmlWidth]
  exact congrArg List.sum (List.map_congr_left fun c _ => charHtml_length c)

/-- A text has characters if it has bytes. -/
theorem eq_nil_of_utf8 {l : List Char} (h : (l.flatMap String.utf8EncodeChar).length = 0) : l = [] := by
  cases l with
  | nil => rfl
  | cons c l =>
      rw [List.length_eq_zero_iff, List.flatMap_cons, List.append_eq_nil_iff] at h
      exact absurd h.1 String.utf8EncodeChar_ne_nil

/-- Bytes that cannot be counted are not all written. -/
theorem not_sized_of_long {l : List Char} (hlong : 2 ^ 31 ≤ htmlWidth l) :
    ¬ SizedHtml (l.flatMap String.utf8EncodeChar) := by
  rintro ⟨r, out, hrun, -⟩
  have hlength : (l.flatMap String.utf8EncodeChar).length ≠ 0 := by
    intro hzero
    rw [eq_nil_of_utf8 hzero] at hlong
    exact absurd hlong (by decide)
  rw [strtohtml, if_neg hlength, rounds_chars] at hrun
  obtain ⟨dest, -, hrun⟩ := Option.bind_eq_some_iff.mp hrun
  rw [Option.bind_eq_bind, Option.bind_some, writeStores_overflow (by decide) (by
    rw [storesText_chars, charHtmls_length, Nat.zero_add]
    exact hlong)] at hrun
  cases hrun

/-- Bytes that can be counted are all written. -/
theorem sized_of_fits {l : List Char} (h0 : '\x00' ∉ l) (hwidth : htmlWidth l < 2 ^ 31) :
    SizedHtml (l.flatMap String.utf8EncodeChar) := by
  have hchars : ∀ c ∈ l, c.val.toNat ≠ 0 := by
    intro c hc hzero
    have hnul : c = '\x00' := Char.ext (UInt32.toNat_inj.mp hzero)
    exact h0 (hnul ▸ hc)
  have hclean : ∀ d ∈ l.flatMap charHtml, d ≠ ch '<' ∧ d ≠ ch '>' ∧ d ≠ ch '"' ∧ d ≠ ch '\'' := by
    intro d hd
    obtain ⟨c, hc, hd⟩ := List.mem_flatMap.mp hd
    exact (charHtml_stands (hchars c hc)).2 d hd
  have hdecode : decodeHtml (l.flatMap charHtml) = some (l.flatMap String.utf8EncodeChar) :=
    Entities.decode_flatMap fun c hc => (charHtml_stands (hchars c hc)).1
  by_cases hempty : (l.flatMap String.utf8EncodeChar).length = 0
  · rw [eq_nil_of_utf8 hempty]
    exact ⟨⟨[], 0, 0⟩, [], rfl, rfl, rfl, rfl, fun h => absurd rfl h, by simp, rfl⟩
  · have hout : (UInt32.ofNat (htmlWidth l)).toNat = htmlWidth l := by
      rw [UInt32.toNat_ofNat']
      omega
    have hsize : (UInt32.ofNat (htmlWidth l) + 1).toNat = htmlWidth l + 1 := by
      rw [UInt32.toNat_add, hout, UInt32.toNat_one]
      omega
    have hblock := @Memory.write_replicate _ [(0 : Byte)] 1 0 (List.replicate (htmlWidth l) 0) (Nat.le_refl 1)
    rw [List.length_replicate, List.replicate_append_replicate] at hblock
    obtain ⟨gap, hgap, hstores⟩ := @writeStores_run _ [] (List.replicate (htmlWidth l) 0)
      (by rw [storesText_chars, charHtmls_length, List.length_replicate])
      (by rw [storesText_chars, charHtmls_length, List.length_nil, Nat.zero_add]; exact hwidth)
    rw [storesText_chars, charHtmls_length, List.length_replicate] at hgap
    obtain rfl := List.eq_nil_of_length_eq_zero (by omega : gap.length = 0)
    rw [storesText_chars, charHtmls_length, List.nil_append, List.nil_append, List.nil_append, List.length_nil,
      Nat.zero_add] at hstores
    refine ⟨⟨l.flatMap charHtml ++ [0], htmlWidth l, htmlWidth l⟩, l.flatMap charHtml, ?_, (charHtmls_length l).symm,
      (charHtmls_length l).symm, ?_, fun _ => rfl, hclean, hdecode⟩
    · rw [strtohtml, if_neg hempty, countLoop_chars, rounds_chars, UInt32.zero_add]
      dsimp only
      rw [hsize, hout, hblock]
      simp only [Option.bind_eq_bind, Option.bind_some]
      rw [List.length_singleton, Nat.sub_self, List.replicate_zero, List.append_nil, hstores]
      rfl
    · exact List.take_left' (charHtmls_length l)

/-- The passes agree, and the text is read back, exactly if the bytes can be counted. -/
theorem sized_iff (l : List Char) (h0 : '\x00' ∉ l) :
    SizedHtml (l.flatMap String.utf8EncodeChar) ↔ htmlWidth l < 2 ^ 31 :=
  ⟨fun h => Nat.not_le.mp fun hlong => not_sized_of_long hlong h, sized_of_fits h0⟩

theorem sized_mixed : SizedHtml (("<a>&\"é€😀\n\x01".toList).flatMap String.utf8EncodeChar) ↔
    htmlWidth "<a>&\"é€😀\n\x01".toList < 2 ^ 31 :=
  sized_iff _ (by decide)

/-- A text of ampersands whose entities an `int` does not count. -/
theorem not_sized_ampersands : ¬ SizedHtml ((List.replicate (2 ^ 29) '&').flatMap String.utf8EncodeChar) := by
  refine not_sized_of_long ?_
  have hwidth : charWidth '&' = 5 := by decide
  rw [htmlWidth, List.map_replicate, List.sum_replicate_nat, hwidth]
  omega

end NullG.Httpd.Htnsp
