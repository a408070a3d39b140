/-
JSON texts.

`Text t j` says that the bytes `t` are a JSON document, in UTF-8 and by the grammar of RFC 8259, and that it denotes the
tree `j`. Two trees are the `Same` if their objects have the same members, in any order.

`scan` reads a text as far as its strings go. It gets through every document, and finds in the strings at least as many
bytes as the strings of the tree have (`Value.scan`), so that it tells of a text that is no document, or of one that
denotes something shorter.
-/

import Mathlib.Algebra.BigOperators.Group.List.Basic
import Mathlib.Algebra.Field.Rat

namespace NullG.Lib

/-- A tree. Its strings are in UTF-8. -/
inductive Json where
  | null
  | bool (b : Bool)
  | num (q : Rat)
  | str (s : List UInt8)
  | arr (vs : List Json)
  | obj (ms : List (List UInt8 × Json))

namespace Json

/-- The same tree: the members of an object are not ordered. -/
inductive Same : Json → Json → Prop
  | refl (j : Json) : Same j j
  | trans {i j k : Json} : Same i j → Same j k → Same i k
  | perm {ms ns : List (List UInt8 × Json)} : ms.Perm ns → Same (.obj ms) (.obj ns)
  | member {v w : Json} (pre : List (List UInt8 × Json)) (k : List UInt8) (post : List (List UInt8 × Json)) :
      Same v w → Same (.obj (pre ++ (k, v) :: post)) (.obj (pre ++ (k, w) :: post))
  | element {v w : Json} (pre post : List Json) :
      Same v w → Same (.arr (pre ++ v :: post)) (.arr (pre ++ w :: post))

/-! ### The grammar -/

/-- The byte of an ASCII character. -/
def ascii (c : Char) : UInt8 := c.toNat.toUInt8

/-- A text in ASCII. -/
def lit (s : String) : List UInt8 := s.toList.map ascii

/-- A text in UTF-8. -/
def Utf8 (t : List UInt8) : Prop := ∃ cs : List Char, t = cs.flatMap String.utf8EncodeChar

/-- `ws` -/
def Ws (t : List UInt8) : Prop := ∀ c ∈ t, c = 0x20 ∨ c = 0x09 ∨ c = 0x0A ∨ c = 0x0D

/-- A structural character, with whitespace around it. -/
def Structural (c : Char) (t : List UInt8) : Prop := ∃ u w, Ws u ∧ Ws w ∧ t = u ++ ascii c :: w

/-- `DIGIT` -/
def isDigit (c : UInt8) : Bool := 48 ≤ c.toNat && c.toNat ≤ 57

/-- The number that digits spell. -/
def digitsVal (ds : List UInt8) : Nat := ds.foldl (fun n c => 10 * n + (c.toNat - 48)) 0

/-- `int`: zero, or digits of which the first is not zero. -/
def IntPart (ds : List UInt8) : Prop :=
  ds ≠ [] ∧ (∀ c ∈ ds, isDigit c = true) ∧ (ds.head? = some (ascii '0') → ds = [ascii '0'])

/-- `frac`, and what it adds. -/
inductive Frac : List UInt8 → Rat → Prop
  | none : Frac [] 0
  | some {ds : List UInt8} : ds ≠ [] → (∀ c ∈ ds, isDigit c = true) →
      Frac (ascii '.' :: ds) ((digitsVal ds : Rat) / 10 ^ ds.length)

/-- `exp`, and what it multiplies with. -/
inductive Exp : List UInt8 → Rat → Prop
  | none : Exp [] 1
  | plus {e : UInt8} {sign ds : List UInt8} : e = ascii 'e' ∨ e = ascii 'E' → sign = [] ∨ sign = [ascii '+'] → ds ≠ [] →
      (∀ c ∈ ds, isDigit c = true) → Exp (e :: sign ++ ds) (10 ^ digitsVal ds)
  | minus {e : UInt8} {ds : List UInt8} : e = ascii 'e' ∨ e = ascii 'E' → ds ≠ [] → (∀ c ∈ ds, isDigit c = true) →
      Exp (e :: ascii '-' :: ds) (1 / 10 ^ digitsVal ds)

/-- `number` -/
inductive Number : List UInt8 → Rat → Prop
  | plus {ds frac exp : List UInt8} {f x : Rat} : IntPart ds → Frac frac f → Exp exp x →
      Number (ds ++ frac ++ exp) ((digitsVal ds + f) * x)
  | minus {ds frac exp : List UInt8} {f x : Rat} : IntPart ds → Frac frac f → Exp exp x →
      Number (ascii '-' :: ds ++ frac ++ exp) (-((digitsVal ds + f) * x))

/-- The character that follows a backslash, and what the two are. -/
def simpleEscape (c : UInt8) : Option UInt8 :=
  if c = 0x22 then some 0x22 else if c = 0x5C then some 0x5C else if c = 0x2F then some 0x2F
  else if c = 0x62 then some 0x08 else if c = 0x66 then some 0x0C else if c = 0x6E then some 0x0A
  else if c = 0x72 then some 0x0D else if c = 0x74 then some 0x09 else none

/-- `HEXDIG` -/
def hexVal (c : UInt8) : Option Nat :=
  if 48 ≤ c.toNat ∧ c.toNat ≤ 57 then some (c.toNat - 48)
  else if 65 ≤ c.toNat ∧ c.toNat ≤ 70 then some (c.toNat - 55)
  else if 97 ≤ c.toNat ∧ c.toNat ≤ 102 then some (c.toNat - 87)
  else none

/-- `4HEXDIG` -/
inductive Hex4 : List UInt8 → Nat → Prop
  | mk {a b c d : UInt8} {i j k l : Nat} : hexVal a = some i → hexVal b = some j → hexVal c = some k →
      hexVal d = some l → Hex4 [a, b, c, d] (4096 * i + 256 * j + 16 * k + l)

/-- `*char`, and the bytes that they are. -/
inductive Chars : List UInt8 → List UInt8 → Prop
  | nil : Chars [] []
  | unescaped {c : UInt8} {t s : List UInt8} : 0x20 ≤ c → c ≠ 0x22 → c ≠ 0x5C → Chars t s → Chars (c :: t) (c :: s)
  | escape {c d : UInt8} {t s : List UInt8} : simpleEscape c = some d → Chars t s → Chars (0x5C :: c :: t) (d :: s)
  | unicode {h t s : List UInt8} {n : Nat} : Hex4 h n → n.isValidChar → Chars t s →
      Chars (0x5C :: 0x75 :: h ++ t) (String.utf8EncodeChar (Char.ofNat n) ++ s)
  | surrogates {h h' t s : List UInt8} {n n' : Nat} : Hex4 h n → 0xD800 ≤ n → n < 0xDC00 → Hex4 h' n' → 0xDC00 ≤ n' →
      n' < 0xE000 → Chars t s →
      Chars (0x5C :: 0x75 :: h ++ 0x5C :: 0x75 :: h' ++ t)
        (String.utf8EncodeChar (Char.ofNat (0x10000 + 1024 * (n - 0xD800) + (n' - 0xDC00))) ++ s)

/-- `string` -/
inductive Str : List UInt8 → List UInt8 → Prop
  | mk {t s : List UInt8} : Chars t s → Str (0x22 :: t ++ [0x22]) s

mutual

/-- `value` -/
inductive Value : List UInt8 → Json → Prop
  | null : Value (lit "null") .null
  | true : Value (lit "true") (.bool true)
  | false : Value (lit "false") (.bool false)
  | number {t : List UInt8} {q : Rat} : Number t q → Value t (.num q)
  | string {t s : List UInt8} : Str t s → Value t (.str s)
  | noElements {a b : List UInt8} : Structural '[' a → Structural ']' b → Value (a ++ b) (.arr [])
  | array {a t b : List UInt8} {vs : List Json} : Structural '[' a → Elements t vs → Structural ']' b →
      Value (a ++ t ++ b) (.arr vs)
  | noMembers {a b : List UInt8} : Structural '\x7b' a → Structural '\x7d' b → Value (a ++ b) (.obj [])
  | object {a t b : List UInt8} {ms : List (List UInt8 × Json)} : Structural '\x7b' a → Members t ms →
      Structural '\x7d' b → Value (a ++ t ++ b) (.obj ms)

/-- The elements of an array. -/
inductive Elements : List UInt8 → List Json → Prop
  | one {t : List UInt8} {v : Json} : Value t v → Elements t [v]
  | cons {t c u : List UInt8} {v : Json} {vs : List Json} : Value t v → Structural ',' c → Elements u vs →
      Elements (t ++ c ++ u) (v :: vs)

/-- `member` -/
inductive Member : List UInt8 → List UInt8 × Json → Prop
  | mk {t k c u : List UInt8} {v : Json} : Str t k → Structural ':' c → Value u v → Member (t ++ c ++ u) (k, v)

/-- The members of an object. -/
inductive Members : List UInt8 → List (List UInt8 × Json) → Prop
  | one {t : List UInt8} {m : List UInt8 × Json} : Member t m → Members t [m]
  | cons {t c u : List UInt8} {m : List UInt8 × Json} {ms : List (List UInt8 × Json)} : Member t m →
      Structural ',' c → Members u ms → Members (t ++ c ++ u) (m :: ms)

end

/-- A document that denotes `j`. -/
structure Text (t : List UInt8) (j : Json) : Prop where
  utf8 : Utf8 t
  value : ∃ u v w, t = u ++ v ++ w ∧ Ws u ∧ Value v j ∧ Ws w

/-! ### How much text there is -/

mutual

/-- How many bytes the strings of a tree have. -/
def weight : Json → Nat
  | .null | .bool _ | .num _ => 0
  | .str s => s.length
  | .arr vs => weightAll vs
  | .obj ms => weightMembers ms

/-- How many bytes the strings of some trees have. -/
def weightAll : List Json → Nat
  | [] => 0
  | v :: vs => weight v + weightAll vs

/-- How many bytes the names and the strings of some members have. -/
def weightMembers : List (List UInt8 × Json) → Nat
  | [] => 0
  | (k, v) :: ms => k.length + weight v + weightMembers ms

end

theorem weightAll_eq (vs : List Json) : weightAll vs = (vs.map weight).sum := by
  induction vs with
  | nil => rfl
  | cons v vs ih => rw [weightAll, List.map_cons, List.sum_cons, ih]

theorem weightMembers_eq (ms : List (List UInt8 × Json)) :
    weightMembers ms = (ms.map fun m => m.1.length + weight m.2).sum := by
  induction ms with
  | nil => rfl
  | cons m ms ih =>
      obtain ⟨k, v⟩ := m
      rw [weightMembers, List.map_cons, List.sum_cons, ih]

theorem Same.weight_eq {i j : Json} (h : Same i j) : weight i = weight j := by
  induction h with
  | refl => rfl
  | trans _ _ ih₁ ih₂ => exact ih₁.trans ih₂
  | perm h => rw [weight, weight, weightMembers_eq, weightMembers_eq, (h.map _).sum_eq]
  | member pre k post _ ih => simp [weight, weightMembers_eq, ih]
  | element pre post _ ih => simp [weight, weightAll_eq, ih]

/-! ### The scanner -/

/-- Where the scanner is: outside of strings, in a string, or behind a backslash in one. -/
inductive Mode where
  | out
  | str
  | esc
deriving DecidableEq

/-- A byte: where the scanner is then, and how many bytes of a string it has found. -/
def step : Mode → UInt8 → Option (Mode × Nat)
  | .out, c => if c = 0x22 then some (.str, 0) else if c = 0x5C then none else some (.out, 0)
  | .str, c =>
      if c = 0x22 then some (.out, 0) else if c = 0x5C then some (.esc, 0) else if c < 0x20 then none else some (.str, 1)
  | .esc, c => if c = 0x75 ∨ (simpleEscape c).isSome then some (.str, 1) else none

def scan : Mode → List UInt8 → Option (Mode × Nat)
  | m, [] => some (m, 0)
  | m, c :: t => (step m c).bind fun (m, n) => (scan m t).map fun (m, k) => (m, n + k)

/-- The scanner gets through `t` from `m` to `m'`, and finds `n` bytes. -/
def Scans (m : Mode) (t : List UInt8) (m' : Mode) (n : Nat) : Prop := scan m t = some (m', n)

variable {m m' m'' : Mode} {c : UInt8} {t u : List UInt8} {n k : Nat}

theorem scans_cons : Scans m (c :: t) m'' n ↔
    ∃ m' i k, step m c = some (m', i) ∧ Scans m' t m'' k ∧ n = i + k := by
  simp only [Scans, scan, Option.bind_eq_some_iff, Option.map_eq_some_iff, Prod.exists, Prod.mk.injEq]
  constructor
  · rintro ⟨m', i, hstep, m₂, k, hscan, rfl, rfl⟩
    exact ⟨m', i, k, hstep, hscan, rfl⟩
  · rintro ⟨m', i, k, hstep, hscan, rfl⟩
    exact ⟨m', i, hstep, m'', k, hscan, rfl, rfl⟩

theorem scans_nil : Scans m [] m' n ↔ m = m' ∧ n = 0 := by
  simp [Scans, scan, eq_comm]

theorem scans_append : Scans m (t ++ u) m'' n ↔ ∃ m' i k, Scans m t m' i ∧ Scans m' u m'' k ∧ n = i + k := by
  induction t generalizing m n with
  | nil =>
      simp only [List.nil_append, scans_nil]
      constructor
      · exact fun h => ⟨m, 0, n, ⟨rfl, rfl⟩, h, (Nat.zero_add n).symm⟩
      · rintro ⟨m', i, k, ⟨rfl, rfl⟩, h, rfl⟩
        rwa [Nat.zero_add]
  | cons c t ih =>
      simp only [List.cons_append, scans_cons, ih]
      constructor
      · rintro ⟨m₁, i, _, hstep, ⟨m₂, j, k, ht, hu, rfl⟩, rfl⟩
        exact ⟨m₂, i + j, k, ⟨m₁, i, j, hstep, ht, rfl⟩, hu, (Nat.add_assoc i j k).symm⟩
      · rintro ⟨m₂, _, k, ⟨m₁, i, j, hstep, ht, rfl⟩, hu, rfl⟩
        exact ⟨m₁, i, j + k, hstep, ⟨m₂, j, k, ht, hu, rfl⟩, Nat.add_assoc i j k⟩

theorem Scans.append (ht : Scans m t m' n) (hu : Scans m' u m'' k) : Scans m (t ++ u) m'' (n + k) :=
  scans_append.mpr ⟨m', n, k, ht, hu, rfl⟩

/-- The scanner reads in one way only. -/
theorem Scans.unique (h : Scans m t m' n) (h' : Scans m t m'' k) : m' = m'' ∧ n = k := by
  rw [Scans] at h h'
  rw [h] at h'
  simpa using h'

/-- No quote and no backslash. -/
def Free (t : List UInt8) : Prop := ∀ c ∈ t, c ≠ 0x22 ∧ c ≠ 0x5C

instance (t : List UInt8) : Decidable (Free t) := List.decidableBAll (fun c => c ≠ 0x22 ∧ c ≠ 0x5C) t

theorem Free.append (ht : Free t) (hu : Free u) : Free (t ++ u) := by
  intro c hc
  rcases List.mem_append.mp hc with hc | hc
  · exact ht c hc
  · exact hu c hc

theorem Free.cons (hc : c ≠ 0x22 ∧ c ≠ 0x5C) (ht : Free t) : Free (c :: t) := by
  intro d hd
  rcases List.mem_cons.mp hd with rfl | hd
  · exact hc
  · exact ht d hd

theorem Free.scans (h : Free t) : Scans .out t .out 0 := by
  induction t with
  | nil => exact scans_nil.mpr ⟨rfl, rfl⟩
  | cons c t ih =>
      obtain ⟨hquote, hback⟩ := h c List.mem_cons_self
      refine scans_cons.mpr ⟨.out, 0, 0, ?_, ih fun d hd => h d (List.mem_cons_of_mem c hd), rfl⟩
      rw [step, if_neg hquote, if_neg hback]

/-! ### Documents get through -/

theorem Ws.free (h : Ws t) : Free t := by
  intro c hc
  rcases h c hc with rfl | rfl | rfl | rfl <;> decide

theorem Structural.free {c : Char} (h : Structural c t) (hc : ascii c ≠ 0x22 ∧ ascii c ≠ 0x5C) : Free t := by
  obtain ⟨u, w, hu, hw, rfl⟩ := h
  exact hu.free.append (Free.cons hc hw.free)

theorem free_digits (h : ∀ c ∈ t, isDigit c = true) : Free t := by
  intro c hc
  have hdigit := h c hc
  constructor <;> rintro rfl <;> revert hdigit <;> decide

theorem Frac.free {f : Rat} (h : Frac t f) : Free t := by
  cases h with
  | none => exact fun c hc => absurd hc List.not_mem_nil
  | some _ hds => exact Free.cons (by decide) (free_digits hds)

theorem Exp.free {x : Rat} (h : Exp t x) : Free t := by
  cases h with
  | none => exact fun c hc => absurd hc List.not_mem_nil
  | plus he hsign _ hds =>
      refine Free.append (Free.cons ?_ ?_) (free_digits hds)
      · rcases he with rfl | rfl <;> decide
      · rcases hsign with rfl | rfl
        · exact fun c hc => absurd hc List.not_mem_nil
        · exact Free.cons (by decide) fun c hc => absurd hc List.not_mem_nil
  | minus he _ hds =>
      refine Free.cons ?_ (Free.cons (by decide) (free_digits hds))
      rcases he with rfl | rfl <;> decide

theorem Number.free {q : Rat} (h : Number t q) : Free t := by
  cases h with
  | plus hint hfrac hexp => exact ((free_digits hint.2.1).append hfrac.free).append hexp.free
  | minus hint hfrac hexp =>
      exact ((Free.cons (by decide) (free_digits hint.2.1)).append hfrac.free).append hexp.free

/-- Bytes of a string as they are. -/
theorem scans_plain (h : ∀ c ∈ t, 0x20 ≤ c ∧ c ≠ 0x22 ∧ c ≠ 0x5C) : Scans .str t .str t.length := by
  induction t with
  | nil => exact scans_nil.mpr ⟨rfl, rfl⟩
  | cons c t ih =>
      obtain ⟨hlow, hquote, hback⟩ := h c List.mem_cons_self
      refine scans_cons.mpr ⟨.str, 1, t.length, ?_, ih fun d hd => h d (List.mem_cons_of_mem c hd), Nat.add_comm ..⟩
      rw [step, if_neg hquote, if_neg hback, if_neg (UInt8.not_lt.mpr hlow)]

theorem Hex4.scans {i : Nat} (h : Hex4 t i) : Scans .str t .str 4 := by
  have hhex : ∀ {c : UInt8} {i : Nat}, hexVal c = some i → 0x20 ≤ c ∧ c ≠ 0x22 ∧ c ≠ 0x5C := by
    intro c i hc
    have hlow : 48 ≤ c.toNat ∧ c.toNat ≤ 57 ∨ 65 ≤ c.toNat ∧ c.toNat ≤ 70 ∨ 97 ≤ c.toNat ∧ c.toNat ≤ 102 := by
      by_contra hnot
      rw [not_or, not_or] at hnot
      rw [hexVal, if_neg hnot.1, if_neg hnot.2.1, if_neg hnot.2.2] at hc
      nomatch hc
    refine ⟨UInt8.le_iff_toNat_le.mpr (show 32 ≤ c.toNat by omega), ?_, ?_⟩
    · rintro rfl
      revert hlow
      decide
    · rintro rfl
      revert hlow
      decide
  cases h with
  | mk ha hb hc hd =>
      refine scans_plain fun x hx => ?_
      simp only [List.mem_cons, List.not_mem_nil, or_false] at hx
      rcases hx with rfl | rfl | rfl | rfl
      · exact hhex ha
      · exact hhex hb
      · exact hhex hc
      · exact hhex hd

theorem length_utf8EncodeChar_le (c : Char) : (String.utf8EncodeChar c).length ≤ 4 := by
  rw [String.length_utf8EncodeChar]
  exact Char.utf8Size_le_four c

/-- A backslash and the four digits of a character. -/
theorem Hex4.scans_escape {i : Nat} (h : Hex4 t i) : Scans .str (0x5C :: 0x75 :: t) .str 5 :=
  scans_cons.mpr ⟨.esc, 0, 5, rfl, scans_cons.mpr ⟨.str, 1, 4, rfl, h.scans, rfl⟩, rfl⟩

theorem Chars.scans {s : List UInt8} (h : Chars t s) : ∃ n, Scans .str t .str n ∧ s.length ≤ n := by
  induction h with
  | nil => exact ⟨0, scans_nil.mpr ⟨rfl, rfl⟩, Nat.le_refl 0⟩
  | @unescaped c t s hlow hquote hback _ ih =>
      obtain ⟨n, hscans, hle⟩ := ih
      refine ⟨1 + n, scans_cons.mpr ⟨.str, 1, n, ?_, hscans, rfl⟩, ?_⟩
      · rw [step, if_neg hquote, if_neg hback, if_neg (UInt8.not_lt.mpr hlow)]
      · rw [List.length_cons]
        omega
  | @escape c d t s hc _ ih =>
      obtain ⟨n, hscans, hle⟩ := ih
      refine ⟨1 + n, scans_cons.mpr ⟨.esc, 0, 1 + n, rfl, scans_cons.mpr ⟨.str, 1, n, ?_, hscans, rfl⟩, ?_⟩, ?_⟩
      · rw [step, if_pos (.inr (by rw [hc]; rfl))]
      · omega
      · rw [List.length_cons]
        omega
  | @unicode h t s n hhex _ _ ih =>
      obtain ⟨k, hscans, hle⟩ := ih
      refine ⟨5 + k, hhex.scans_escape.append hscans, ?_⟩
      have hlen := length_utf8EncodeChar_le (Char.ofNat n)
      rw [List.length_append]
      omega
  | @surrogates h h' t s n n' hhex _ _ hhex' _ _ _ ih =>
      obtain ⟨k, hscans, hle⟩ := ih
      have hfirst := hhex.scans_escape.append hhex'.scans_escape
      have hall := hfirst.append hscans
      refine ⟨5 + 5 + k, by simpa using hall, ?_⟩
      have hlen := length_utf8EncodeChar_le (Char.ofNat (0x10000 + 1024 * (n - 0xD800) + (n' - 0xDC00)))
      rw [List.length_append]
      omega

theorem Str.scans {s : List UInt8} (h : Str t s) : ∃ n, Scans .out t .out n ∧ s.length ≤ n := by
  obtain ⟨h⟩ := h
  obtain ⟨n, hscans, hle⟩ := h.scans
  have hclose : Scans .str [0x22] .out 0 := rfl
  exact ⟨n, scans_cons.mpr ⟨.str, 0, n, rfl, hscans.append hclose, (Nat.zero_add n).symm⟩, hle⟩

/-- The scanner gets through what denotes something of the weight `w`. -/
def Covers (t : List UInt8) (w : Nat) : Prop := ∃ n, Scans .out t .out n ∧ w ≤ n

theorem Covers.append {v w : Nat} (ht : Covers t v) (hu : Covers u w) : Covers (t ++ u) (v + w) := by
  obtain ⟨n, hn, hv⟩ := ht
  obtain ⟨k, hk, hw⟩ := hu
  exact ⟨n + k, hn.append hk, Nat.add_le_add hv hw⟩

theorem Free.covers (h : Free t) : Covers t 0 := ⟨0, h.scans, Nat.le_refl 0⟩

mutual

theorem Value.covers {t : List UInt8} {j : Json} : Value t j → Covers t (weight j)
  | .null => Free.covers (by decide)
  | .true => Free.covers (by decide)
  | .false => Free.covers (by decide)
  | .number h => h.free.covers
  | .string h => h.scans
  | .noElements ha hb => ((ha.free (by decide)).append (hb.free (by decide))).covers
  | .array ha h hb => by
      have hall := ((ha.free (by decide)).covers.append h.covers).append (hb.free (by decide)).covers
      simpa [weight] using hall
  | .noMembers ha hb => ((ha.free (by decide)).append (hb.free (by decide))).covers
  | .object ha h hb => by
      have hall := ((ha.free (by decide)).covers.append h.covers).append (hb.free (by decide)).covers
      simpa [weight] using hall

theorem Elements.covers {t : List UInt8} {vs : List Json} : Elements t vs → Covers t (weightAll vs)
  | .one h => h.covers
  | .cons h hc hs => by
      have hall := (h.covers.append (hc.free (by decide)).covers).append hs.covers
      simpa [weightAll] using hall

theorem Member.covers {t : List UInt8} {m : List UInt8 × Json} : Member t m → Covers t (m.1.length + weight m.2)
  | .mk hk hc hv => by
      have hall := (Covers.append hk.scans (hc.free (by decide)).covers).append hv.covers
      simpa using hall

theorem Members.covers {t : List UInt8} {ms : List (List UInt8 × Json)} : Members t ms → Covers t (weightMembers ms)
  | .one h => h.covers
  | .cons h hc hs => by
      have hall := (h.covers.append (hc.free (by decide)).covers).append hs.covers
      simpa [weightMembers] using hall

end

/-- The scanner gets through every document. -/
theorem Text.covers {j : Json} (h : Text t j) : Covers t (weight j) := by
  obtain ⟨u, v, w, rfl, hu, hv, hw⟩ := h.value
  have hall := (hu.free.covers.append hv.covers).append hw.free.covers
  simpa using hall

/-! ### UTF-8 -/

theorem Utf8.append (ht : Utf8 t) (hu : Utf8 u) : Utf8 (t ++ u) := by
  obtain ⟨cs, rfl⟩ := ht
  obtain ⟨ds, rfl⟩ := hu
  exact ⟨cs ++ ds, List.flatMap_append.symm⟩

/-- Bytes below 128. -/
def Ascii (t : List UInt8) : Prop := ∀ c ∈ t, c < 0x80

instance (t : List UInt8) : Decidable (Ascii t) := List.decidableBAll (· < 0x80) t

theorem utf8_of_ascii (h : Ascii t) : Utf8 t := by
  refine ⟨t.map fun c => Char.ofNat c.toNat, ?_⟩
  induction t with
  | nil => rfl
  | cons c t ih =>
      have hc : c.toNat < 128 := UInt8.lt_iff_toNat_lt.mp (h c List.mem_cons_self)
      have hval : (Char.ofNat c.toNat).toNat = c.toNat := by
        rw [Char.ofNat, dif_pos (Or.inl (by omega))]
        rfl
      have hencode : String.utf8EncodeChar (Char.ofNat c.toNat) = [c] := by
        simp [String.utf8EncodeChar, hval]
        omega
      rw [List.map_cons, List.flatMap_cons, hencode, ← ih fun d hd => h d (List.mem_cons_of_mem c hd)]
      rfl

/-- A character is one byte below 128, or bytes that are none of these. -/
theorem utf8EncodeChar_cases (c : Char) :
    (∃ b, String.utf8EncodeChar c = [b] ∧ b < 0x80) ∨ ∀ b ∈ String.utf8EncodeChar c, 0x80 ≤ b := by
  have hbyte : ∀ n, 0x80 ≤ n → n < 0x100 → (0x80 : UInt8) ≤ UInt8.ofNat n := by
    intro n hlow hhigh
    rw [UInt8.le_iff_toNat_le, UInt8.toNat_ofNat_of_lt' hhigh]
    exact hlow
  rw [String.utf8EncodeChar]
  split
  · next hc =>
      refine .inl ⟨_, rfl, ?_⟩
      rw [UInt8.lt_iff_toNat_lt, UInt8.toNat_ofNat_of_lt' (show c.val.toNat < 256 by omega)]
      exact Nat.lt_succ_of_le hc
  · refine .inr fun b hb => ?_
    split at hb
    · simp only [List.mem_cons, List.not_mem_nil, or_false] at hb
      rcases hb with rfl | rfl <;> exact hbyte _ (by omega) (by omega)
    · split at hb
      · simp only [List.mem_cons, List.not_mem_nil, or_false] at hb
        rcases hb with rfl | rfl | rfl <;> exact hbyte _ (by omega) (by omega)
      · simp only [List.mem_cons, List.not_mem_nil, or_false] at hb
        rcases hb with rfl | rfl | rfl | rfl <;> exact hbyte _ (by omega) (by omega)

/-- Bytes below 128 may be replaced by some of them. -/
theorem Utf8.flatMap {f : UInt8 → List UInt8} (hhigh : ∀ c, 0x80 ≤ c → f c = [c])
    (hlow : ∀ c < 0x80, Ascii (f c)) (ht : Utf8 t) : Utf8 (t.flatMap f) := by
  obtain ⟨cs, rfl⟩ := ht
  induction cs with
  | nil => exact ⟨[], rfl⟩
  | cons c cs ih =>
      rw [List.flatMap_cons, List.flatMap_append]
      refine Utf8.append ?_ ih
      rcases utf8EncodeChar_cases c with ⟨b, hb, hlt⟩ | hge
      · rw [hb, List.flatMap_singleton]
        exact utf8_of_ascii (hlow b hlt)
      · have hsame : (String.utf8EncodeChar c).flatMap f = String.utf8EncodeChar c := by
          rw [List.flatMap_congr fun b hb => hhigh b (hge b hb), List.flatMap_singleton']
        rw [hsame]
        exact ⟨[c], by simp⟩

end Json

end NullG.Lib
