/-
Buckets in one array.

Elements are put one after another into an array of as many slots, each into the first free slot from where its bucket
starts. The buckets follow one another and have the widths `c`. Every element is found in the array afterwards if and
only if every bucket that another one follows is as wide as it has elements, and no element of a bucket that has
another one behind it looks like a free slot (`fill_iff`).
-/

import Mathlib.Data.List.Perm.Subperm

namespace NullG.Lib

variable {α : Type}

/-- The first free slot from the `start`-th on. -/
def firstFree (free : α → Bool) : Nat → List α → Option Nat
  | _, [] => none
  | start + 1, _ :: xs => (firstFree free start xs).map (· + 1)
  | 0, x :: xs => if free x then some 0 else (firstFree free 0 xs).map (· + 1)

/-- An element is put into the first free slot. -/
def place (free : α → Bool) (start : Nat) (a : α) (xs : List α) : Option (List α) :=
  (firstFree free start xs).map fun k => xs.set k a

/-- The elements are put into their slots. -/
def fill (free : α → Bool) (start : α → Nat) : List α → List α → Option (List α)
  | [], xs => some xs
  | a :: as, xs => (place free (start a) a xs).bind (fill free start as)

/-- Where a bucket starts. -/
def startOf (c : Nat → Nat) : Nat → Nat
  | 0 => 0
  | b + 1 => startOf c b + c b

/-! ### The first free slot -/

section

variable {free : α → Bool} {start k : Nat} {a : α} {xs ys : List α}

theorem firstFree_append (pre : List α) (xs : List α) :
    firstFree free pre.length (pre ++ xs) = (firstFree free 0 xs).map (· + pre.length) := by
  induction pre with
  | nil => simp
  | cons p pre ih =>
      rw [List.length_cons, List.cons_append, firstFree, ih, Option.map_map]
      congr 1

theorem firstFree_taken {taken : List α} (htaken : ∀ x ∈ taken, free x = false) (ha : free a = true) :
    firstFree free 0 (taken ++ a :: xs) = some taken.length := by
  induction taken with
  | nil => simp [firstFree, ha]
  | cons x taken ih =>
      have hrest := ih fun y hy => htaken y (List.mem_cons_of_mem x hy)
      simp [firstFree, htaken x List.mem_cons_self, hrest]

/-- What is said of the slot that is found. -/
theorem firstFree_spec (h : firstFree free start xs = some k) :
    start ≤ k ∧ (∃ x, xs[k]? = some x ∧ free x = true) ∧
      ∀ i, start ≤ i → i < k → ∃ x, xs[i]? = some x ∧ free x = false := by
  induction xs generalizing start k with
  | nil => simp [firstFree] at h
  | cons x xs ih =>
      cases start with
      | succ start =>
          rw [firstFree, Option.map_eq_some_iff] at h
          obtain ⟨k, hk, rfl⟩ := h
          obtain ⟨hle, hfree, htaken⟩ := ih hk
          refine ⟨Nat.succ_le_succ hle, by simpa using hfree, fun i hi hik => ?_⟩
          obtain ⟨i, rfl⟩ := Nat.exists_eq_succ_of_ne_zero (Nat.ne_of_gt (Nat.lt_of_lt_of_le (Nat.succ_pos _) hi))
          simpa using htaken i (Nat.le_of_succ_le_succ hi) (Nat.lt_of_succ_lt_succ hik)
      | zero =>
          rw [firstFree] at h
          cases hx : free x with
          | true =>
              rw [hx, if_pos rfl, Option.some.injEq] at h
              subst h
              exact ⟨Nat.le_refl 0, ⟨x, rfl, hx⟩, fun i _ hi => absurd hi (Nat.not_lt_zero i)⟩
          | false =>
              rw [hx, if_neg Bool.false_ne_true, Option.map_eq_some_iff] at h
              obtain ⟨k, hk, rfl⟩ := h
              obtain ⟨_, hfree, htaken⟩ := ih hk
              refine ⟨Nat.zero_le _, by simpa using hfree, fun i _ hik => ?_⟩
              cases i with
              | zero => exact ⟨x, rfl, hx⟩
              | succ i => simpa using htaken i (Nat.zero_le i) (Nat.lt_of_succ_lt_succ hik)

theorem place_cases (h : place free start a xs = some ys) :
    ∃ k, firstFree free start xs = some k ∧ ys = xs.set k a := by
  rw [place, Option.map_eq_some_iff] at h
  obtain ⟨k, hk, rfl⟩ := h
  exact ⟨k, hk, rfl⟩

theorem place_length (h : place free start a xs = some ys) : ys.length = xs.length := by
  obtain ⟨k, _, rfl⟩ := place_cases h
  exact List.length_set

/-- An element stands at one of its own slots; what else is there was there before. -/
theorem getElem?_place (h : place free start a xs = some ys) {i : Nat} {x : α} (hx : ys[i]? = some x) :
    (x = a ∧ start ≤ i) ∨ xs[i]? = some x := by
  obtain ⟨k, hk, rfl⟩ := place_cases h
  rw [List.getElem?_set] at hx
  split at hx
  · next hki =>
      subst hki
      split at hx
      · exact .inl ⟨(Option.some.inj hx).symm, (firstFree_spec hk).1⟩
      · nomatch hx
  · exact .inr hx

/-- A slot that is taken stays as it is. -/
theorem place_taken (h : place free start a xs = some ys) {i : Nat} {x : α} (hx : xs[i]? = some x)
    (htaken : free x = false) : ys[i]? = some x := by
  obtain ⟨k, hk, rfl⟩ := place_cases h
  obtain ⟨_, ⟨y, hy, hfree⟩, _⟩ := firstFree_spec hk
  have hne : k ≠ i := by
    rintro rfl
    rw [hy] at hx
    rw [Option.some.inj hx, htaken] at hfree
    cases hfree
  rw [List.getElem?_set_ne hne, hx]

end

/-! ### What is lost -/

section

variable {free : α → Bool} {start : α → Nat} {a : α} {as xs ys out : List α}

theorem fill_cons (h : fill free start (a :: as) xs = some out) :
    ∃ ys, place free (start a) a xs = some ys ∧ fill free start as ys = some out := Option.bind_eq_some_iff.mp h

theorem fill_length (h : fill free start as xs = some out) : out.length = xs.length := by
  induction as generalizing xs with
  | nil => rw [← Option.some.inj h]
  | cons a as ih =>
      obtain ⟨ys, hys, hout⟩ := fill_cons h
      rw [ih hout, place_length hys]

/-- Every element stands where its bucket starts or behind that. -/
theorem getElem?_fill (h : fill free start as xs = some out) {i : Nat} {x : α} (hx : out[i]? = some x) :
    (x ∈ as ∧ start x ≤ i) ∨ xs[i]? = some x := by
  induction as generalizing xs with
  | nil => exact .inr (by rwa [← Option.some.inj h] at hx)
  | cons a as ih =>
      obtain ⟨ys, hys, hout⟩ := fill_cons h
      rcases ih hout with ⟨hmem, hle⟩ | hx
      · exact .inl ⟨List.mem_cons_of_mem a hmem, hle⟩
      · rcases getElem?_place hys hx with ⟨rfl, hle⟩ | hx
        · exact .inl ⟨List.mem_cons_self, hle⟩
        · exact .inr hx

theorem mem_fill (h : fill free start as xs = some out) {x : α} (hx : x ∈ out) : x ∈ as ∨ x ∈ xs := by
  obtain ⟨i, hi⟩ := List.mem_iff_getElem?.mp hx
  rcases getElem?_fill h hi with ⟨hmem, _⟩ | hi
  · exact .inl hmem
  · exact .inr (List.mem_iff_getElem?.mpr ⟨i, hi⟩)

theorem start_lt_of_fill (h : fill free start as xs = some out) (ha : a ∈ as) : start a < xs.length := by
  induction as generalizing xs with
  | nil => exact absurd ha List.not_mem_nil
  | cons b as ih =>
      obtain ⟨ys, hys, hout⟩ := fill_cons h
      rcases List.mem_cons.mp ha with rfl | ha
      · obtain ⟨k, hk, -⟩ := place_cases hys
        obtain ⟨hle, ⟨x, hx, -⟩, -⟩ := firstFree_spec hk
        exact Nat.lt_of_le_of_lt hle (List.getElem?_eq_some_iff.mp hx).1
      · rw [← place_length hys]
        exact ih hout ha

/-- The element can be at the first slot only that is free for its bucket. -/
def AtFirst (free : α → Bool) (start : Nat) (a : α) (xs : List α) : Prop :=
  ∃ k, start ≤ k ∧ (∀ i, start ≤ i → i < k → ∃ x, xs[i]? = some x ∧ free x = false) ∧ ∀ i, xs[i]? = some a → i = k

theorem atFirst_place (h : place free (start a) a xs = some ys) (ha : a ∉ xs) : AtFirst free (start a) a ys := by
  obtain ⟨k, hk, rfl⟩ := place_cases h
  obtain ⟨hle, _, htaken⟩ := firstFree_spec hk
  refine ⟨k, hle, fun i hi hik => ?_, fun i hi => ?_⟩
  · rw [List.getElem?_set_ne (Nat.ne_of_gt hik)]
    exact htaken i hi hik
  · by_contra hne
    rw [List.getElem?_set_ne (fun h => hne h.symm)] at hi
    exact ha (List.mem_iff_getElem?.mpr ⟨i, hi⟩)

variable {b : α} {s : Nat}

theorem AtFirst.keep (hat : AtFirst free s a xs) (h : place free (start b) b xs = some ys) (hne : b ≠ a) :
    AtFirst free s a ys := by
  obtain ⟨k, hle, htaken, honly⟩ := hat
  refine ⟨k, hle, fun i hi hik => ?_, fun i hi => ?_⟩
  · obtain ⟨x, hx, hfree⟩ := htaken i hi hik
    exact ⟨x, place_taken h hx hfree, hfree⟩
  · rcases getElem?_place h hi with ⟨heq, _⟩ | hi
    · exact absurd heq.symm hne
    · exact honly i hi

/-- The next element of the bucket takes its slot, if it looks free. -/
theorem AtFirst.lost (hat : AtFirst free s a xs) (h : place free s b xs = some ys) (hne : b ≠ a)
    (ha : free a = true) : a ∉ ys := by
  obtain ⟨k, hle, htaken, honly⟩ := hat
  intro hmem
  obtain ⟨i, hi⟩ := List.mem_iff_getElem?.mp hmem
  obtain ⟨j, hj, rfl⟩ := place_cases h
  obtain ⟨hsj, ⟨x, hx, hfree⟩, hbefore⟩ := firstFree_spec hj
  have hij : j ≠ i := by
    rintro rfl
    rw [List.getElem?_set_self (List.getElem?_eq_some_iff.mp hx).1] at hi
    exact hne (Option.some.inj hi)
  rw [List.getElem?_set_ne hij] at hi
  obtain rfl := honly i hi
  -- of the two slots the first one is taken
  rcases Nat.lt_or_gt_of_ne hij with hlt | hgt
  · obtain ⟨y, hy, hytaken⟩ := htaken j hsj hlt
    rw [hx] at hy
    rw [Option.some.inj hy, hytaken] at hfree
    cases hfree
  · obtain ⟨y, hy, hytaken⟩ := hbefore i hle hgt
    rw [hi] at hy
    rw [← Option.some.inj hy, ha] at hytaken
    cases hytaken

theorem fill_lost (h : fill free start as xs = some out) (hat : AtFirst free (start a) a xs) (hnot : a ∉ as)
    (hb : b ∈ as) (hsame : start b = start a) (ha : free a = true) : a ∉ out := by
  induction as generalizing xs with
  | nil => exact absurd hb List.not_mem_nil
  | cons c as ih =>
      obtain ⟨ys, hys, hout⟩ := fill_cons h
      have hne : c ≠ a := fun heq => hnot (heq ▸ List.mem_cons_self)
      have hnot' : a ∉ as := fun hmem => hnot (List.mem_cons_of_mem c hmem)
      rcases List.mem_cons.mp hb with rfl | hb
      · rw [hsame] at hys
        have hlost := hat.lost hys hne ha
        intro hmem
        rcases mem_fill hout hmem with hmem | hmem
        · exact hnot' hmem
        · exact hlost hmem
      · exact ih hout (hat.keep hys hne) hnot' hb

/-- If every element is found, none that looks free has another one of its bucket behind it. -/
theorem pairwise_of_fill (h : fill free start as xs = some out) (hnew : ∀ a ∈ as, a ∉ xs) (hnodup : as.Nodup)
    (hall : ∀ a ∈ as, a ∈ out) : as.Pairwise fun a b => start b = start a → free a = false := by
  induction as generalizing xs with
  | nil => exact List.Pairwise.nil
  | cons a as ih =>
      obtain ⟨ys, hys, hout⟩ := fill_cons h
      obtain ⟨hnot, hnodup⟩ := List.nodup_cons.mp hnodup
      refine List.pairwise_cons.mpr ⟨fun b hb hsame => ?_, ?_⟩
      · by_contra hfree
        have hat := atFirst_place hys (hnew a List.mem_cons_self)
        exact fill_lost hout hat hnot hb hsame (by simpa using hfree) (hall a List.mem_cons_self)
      · refine ih hout (fun b hb hmem => ?_) hnodup fun b hb => hall b (List.mem_cons_of_mem a hb)
        obtain ⟨i, hi⟩ := List.mem_iff_getElem?.mp hmem
        rcases getElem?_place hys hi with ⟨rfl, _⟩ | hi
        · exact hnot hb
        · exact hnew b (List.mem_cons_of_mem a hb) (List.mem_iff_getElem?.mpr ⟨i, hi⟩)

end

/-! ### Widths -/

section

variable {c d : Nat → Nat} {b b' m : Nat}

theorem startOf_mono (h : b ≤ b') : startOf c b ≤ startOf c b' := by
  induction h with
  | refl => exact Nat.le_refl _
  | step _ ih => exact Nat.le_trans ih (Nat.le_add_right _ _)

theorem startOf_le (h : ∀ b, d b ≤ c b) (b : Nat) : startOf d b ≤ startOf c b := by
  induction b with
  | zero => exact Nat.le_refl 0
  | succ b ih => exact Nat.add_le_add ih (h b)

/-- The buckets start at the same slot only if all that are before have the same widths. -/
theorem startOf_eq_iff (h : ∀ b, d b ≤ c b) (b : Nat) : startOf c b ≤ startOf d b ↔ ∀ k < b, c k = d k := by
  induction b with
  | zero => simp [startOf]
  | succ b ih =>
      have hle := startOf_le h b
      have hb := h b
      rw [Nat.forall_lt_succ_right, ← ih, startOf, startOf]
      omega

/-- The buckets one after another are the array. -/
theorem flatMap_buckets (xs : List α) (m : Nat) :
    (List.range m).flatMap (fun b => (xs.drop (startOf c b)).take (c b)) = xs.take (startOf c m) := by
  induction m with
  | zero => rfl
  | succ m ih => rw [List.range_succ, List.flatMap_append, ih, startOf, List.take_add, List.flatMap_singleton]

variable (bucket : α → Nat)

/-- How many elements a bucket has. -/
def countIn (as : List α) (b : Nat) : Nat := as.countP fun a => bucket a == b

theorem startOf_countIn (as : List α) (b : Nat) :
    startOf (countIn bucket as) b = as.countP fun a => decide (bucket a < b) := by
  induction as with
  | nil =>
      induction b with
      | zero => rfl
      | succ b ih => simpa [startOf, countIn] using ih
  | cons a as ih =>
      have hcons : ∀ b, startOf (countIn bucket (a :: as)) b =
          startOf (countIn bucket as) b + if bucket a < b then 1 else 0 := by
        intro b
        induction b with
        | zero => simp [startOf]
        | succ b ihb =>
            rw [startOf, ihb, startOf, countIn, countIn, List.countP_cons]
            rcases Nat.lt_trichotomy (bucket a) b with hlt | heq | hgt
            · simp [hlt, Nat.lt_succ_of_lt hlt, Nat.ne_of_lt hlt]
              omega
            · simp [heq]
              omega
            · simp [Nat.not_lt_of_gt hgt, Nat.ne_of_gt hgt, Nat.not_lt.mpr (Nat.succ_le_of_lt hgt)]
      rw [hcons, ih, List.countP_cons]
      simp

variable {bucket} {free : α → Bool} {blank : α} {as out : List α}

/-- If every element is found, a bucket that has elements starts behind no slot too many. -/
theorem startOf_le_of_fill
    (h : fill free (fun a => startOf c (bucket a)) as (List.replicate as.length blank) = some out)
    (hblank : blank ∉ as) (hnodup : as.Nodup) (hall : ∀ a ∈ as, a ∈ out) (hb : countIn bucket as b ≠ 0) :
    startOf c b ≤ startOf (countIn bucket as) b := by
  -- the elements of this bucket and of those behind it are found behind its start
  have hsub : (as.filter fun a => !decide (bucket a < b)) ⊆ out.drop (startOf c b) := by
    intro a ha
    obtain ⟨hmem, hge⟩ := List.mem_filter.mp ha
    obtain ⟨i, hi⟩ := List.mem_iff_getElem?.mp (hall a hmem)
    rcases getElem?_fill h hi with ⟨_, hle⟩ | hi'
    · have hb' : startOf c b ≤ startOf c (bucket a) := startOf_mono (by simpa using hge)
      refine List.mem_iff_getElem?.mpr ⟨i - startOf c b, ?_⟩
      rw [List.getElem?_drop, Nat.add_sub_cancel' (Nat.le_trans hb' hle), hi]
    · have heq := List.eq_of_mem_replicate (List.mem_iff_getElem?.mpr ⟨i, hi'⟩)
      exact absurd (heq ▸ hmem) hblank
  have hlen := (List.subperm_of_subset (hnodup.filter _) hsub).length_le
  rw [← List.countP_eq_length_filter, List.length_drop, fill_length h, List.length_replicate] at hlen
  have hsplit := List.length_eq_countP_add_countP (fun a => decide (bucket a < b)) (l := as)
  have hpos : 0 < as.countP fun a => !decide (bucket a < b) := by
    obtain ⟨a, ha, heq⟩ := List.countP_pos_iff.mp (Nat.pos_of_ne_zero hb)
    refine List.countP_pos_iff.mpr ⟨a, ha, ?_⟩
    simp [beq_iff_eq.mp heq]
  have hnot : (as.countP fun a => decide ¬decide (bucket a < b) = true) =
      as.countP fun a => !decide (bucket a < b) :=
    List.countP_congr fun a _ => by simp
  rw [startOf_countIn]
  omega

/-- The slots of a bucket when the elements `done` are put. -/
def block (bucket : α → Nat) (blank : α) (as done : List α) (b : Nat) : List α :=
  done.filter (fun a => bucket a == b) ++ List.replicate (countIn bucket as b - countIn bucket done b) blank

theorem length_block {done rest : List α} (has : as = done ++ rest) (b : Nat) :
    (block bucket blank as done b).length = countIn bucket as b := by
  have hle : countIn bucket done b ≤ countIn bucket as b := by simp [has, countIn]
  rw [block, List.length_append, ← List.countP_eq_length_filter, List.length_replicate]
  exact Nat.add_sub_cancel' hle

theorem length_blocks {done rest : List α} (has : as = done ++ rest) (b : Nat) :
    ((List.range b).flatMap (block bucket blank as done)).length = startOf (countIn bucket as) b := by
  induction b with
  | zero => rfl
  | succ b ih => simp [List.range_succ, length_block has, startOf, ih]

/-- The blocks before and behind that of `b`. -/
theorem flatMap_range {f : Nat → List α} (hb : b < m) :
    (List.range m).flatMap f =
      (List.range b).flatMap f ++ (f b ++ (List.range' (b + 1) (m - b - 1)).flatMap f) := by
  have hrange : List.range m = List.range b ++ (b :: List.range' (b + 1) (m - b - 1)) := by
    have happ : List.range' 0 b ++ List.range' (0 + b) (m - b - 1 + 1) = List.range' 0 (b + (m - b - 1 + 1)) :=
      List.range'_append_1
    rw [Nat.zero_add] at happ
    rw [List.range_eq_range', List.range_eq_range', ← List.range'_succ, happ]
    congr 1
    omega
  rw [hrange, List.flatMap_append, List.flatMap_cons]

theorem fill_blocks (hfree : free blank = true) (hm : ∀ a ∈ as, bucket a < m)
    (hstart : ∀ a ∈ as, startOf c (bucket a) = startOf (countIn bucket as) (bucket a))
    (hpair : as.Pairwise fun a a' => bucket a' = bucket a → free a = false) {done rest : List α}
    (has : as = done ++ rest) :
    fill free (fun a => startOf c (bucket a)) rest ((List.range m).flatMap (block bucket blank as done)) =
      some ((List.range m).flatMap (block bucket blank as as)) := by
  induction rest generalizing done with
  | nil => rw [has, List.append_nil, fill]
  | cons a rest ih =>
      have hmem : a ∈ as := by simp [has]
      have has' : as = (done ++ [a]) ++ rest := by simp [has]
      have hnext := ih has'
      -- the block of `a` before and after
      have hcount : countIn bucket done (bucket a) + 1 + countIn bucket rest (bucket a) =
          countIn bucket as (bucket a) := by
        simp [has, countIn]
        omega
      have hblock : block bucket blank as done (bucket a) =
          done.filter (fun x => bucket x == bucket a) ++
            blank :: List.replicate (countIn bucket rest (bucket a)) blank := by
        rw [block, ← List.replicate_succ]
        congr 2
        omega
      have hblock' : block bucket blank as (done ++ [a]) (bucket a) =
          done.filter (fun x => bucket x == bucket a) ++
            a :: List.replicate (countIn bucket rest (bucket a)) blank := by
        have hdone : countIn bucket (done ++ [a]) (bucket a) = countIn bucket done (bucket a) + 1 := by
          simp [countIn]
        rw [block, hdone, List.filter_append, List.filter_cons_of_pos (by simp), List.filter_nil, List.append_assoc]
        simp only [List.singleton_append]
        congr 3
        omega
      have hother : ∀ k, k ≠ bucket a → block bucket blank as (done ++ [a]) k = block bucket blank as done k := by
        intro k hk
        have hne : (bucket a == k) = false := by simpa using fun h => hk h.symm
        simp [block, countIn, hne]
      have htaken : ∀ x ∈ done.filter (fun x => bucket x == bucket a), free x = false := by
        intro x hx
        obtain ⟨hx, heq⟩ := List.mem_filter.mp hx
        rw [has, List.pairwise_append] at hpair
        exact hpair.2.2 x hx a List.mem_cons_self (beq_iff_eq.mp heq).symm
      have hbefore : (List.range (bucket a)).flatMap (block bucket blank as (done ++ [a])) =
          (List.range (bucket a)).flatMap (block bucket blank as done) :=
        List.flatMap_congr fun k hk => hother k (Nat.ne_of_lt (List.mem_range.mp hk))
      have hbehind : (List.range' (bucket a + 1) (m - bucket a - 1)).flatMap (block bucket blank as (done ++ [a])) =
          (List.range' (bucket a + 1) (m - bucket a - 1)).flatMap (block bucket blank as done) := by
        refine List.flatMap_congr fun k hk => hother k ?_
        have hge := (List.mem_range'_1.mp hk).1
        omega
      have hlen : startOf c (bucket a) = ((List.range (bucket a)).flatMap (block bucket blank as done)).length := by
        rw [length_blocks has, hstart a hmem]
      have hplace : place free (startOf c (bucket a)) a ((List.range m).flatMap (block bucket blank as done)) =
          some ((List.range m).flatMap (block bucket blank as (done ++ [a]))) := by
        rw [flatMap_range (hm a hmem), flatMap_range (f := block bucket blank as (done ++ [a])) (hm a hmem), hblock,
          hblock', hbefore, hbehind, place, hlen, List.append_assoc, List.append_assoc, List.cons_append,
          List.cons_append, firstFree_append, firstFree_taken htaken hfree]
        simp
      rw [fill, hplace, Option.bind_some, hnext]

/-- When every element is found in the array that the elements were put into. -/
theorem fill_iff (hfree : free blank = true) (hblank : blank ∉ as) (hnodup : as.Nodup)
    (hm : ∀ a ∈ as, bucket a < m) (hle : ∀ b, countIn bucket as b ≤ c b) :
    (∃ out, fill free (fun a => startOf c (bucket a)) as (List.replicate as.length blank) = some out ∧
        ∀ a ∈ as, a ∈ out) ↔
      (∀ b, countIn bucket as b ≠ 0 → ∀ k < b, c k = countIn bucket as k) ∧
        as.Pairwise fun a a' => bucket a' = bucket a → free a = false := by
  constructor
  · rintro ⟨out, h, hall⟩
    refine ⟨fun b hb => (startOf_eq_iff hle b).mp (startOf_le_of_fill h hblank hnodup hall hb), ?_⟩
    have hnew : ∀ a ∈ as, a ∉ List.replicate as.length blank :=
      fun a ha hmem => hblank (List.eq_of_mem_replicate hmem ▸ ha)
    refine (pairwise_of_fill h hnew hnodup hall).imp fun {a a'} himp heq => himp ?_
    rw [heq]
  · rintro ⟨hwidth, hpair⟩
    have hstart : ∀ a ∈ as, startOf c (bucket a) = startOf (countIn bucket as) (bucket a) := by
      intro a ha
      have hb : countIn bucket as (bucket a) ≠ 0 :=
        Nat.ne_of_gt (List.countP_pos_iff.mpr ⟨a, ha, by simp⟩)
      exact Nat.le_antisymm ((startOf_eq_iff hle _).mpr (hwidth _ hb)) (startOf_le hle _)
    have hinit : (List.range m).flatMap (block bucket blank as []) = List.replicate as.length blank := by
      refine List.eq_replicate_iff.mpr ⟨?_, fun x hx => ?_⟩
      · rw [length_blocks (List.nil_append as).symm, startOf_countIn, List.countP_eq_length]
        exact fun a ha => decide_eq_true (hm a ha)
      · obtain ⟨b, _, hx⟩ := List.mem_flatMap.mp hx
        simp only [block, List.filter_nil, List.nil_append] at hx
        exact List.eq_of_mem_replicate hx
    refine ⟨_, hinit ▸ fill_blocks hfree hm hstart hpair (List.nil_append as).symm, fun a ha => ?_⟩
    refine List.mem_flatMap.mpr ⟨bucket a, List.mem_range.mpr (hm a ha), List.mem_append_left _ ?_⟩
    exact List.mem_filter.mpr ⟨ha, beq_self_eq_true _⟩

end

end NullG.Lib
