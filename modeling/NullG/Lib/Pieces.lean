/-
Lists that are read in pieces.

A reader that stops behind an element picked by `stop`, or when it has read `max` elements, cuts a
list into `pieces`; without the bound it cuts it into `lines`. Nothing is lost in either, a line
that is ended is cut independently of what follows it, and the pieces of a list are the pieces of
its lines.
-/

import Mathlib.Data.List.Infix
import Mathlib.Data.List.TakeWhile

namespace NullG.Lib

section

variable {α : Type} (stop : α → Bool)

/-- The first piece of a list. -/
def piece : Nat → List α → List α
  | 0, _ => []
  | _, [] => []
  | n + 1, c :: l => if stop c then [c] else c :: piece n l

/-- The pieces of a list, one for each unit of fuel. -/
def piecesFrom (max : Nat) : Nat → List α → List (List α)
  | 0, _ => []
  | _, [] => []
  | fuel + 1, c :: l =>
      let p := piece stop max (c :: l)
      p :: piecesFrom max fuel ((c :: l).drop p.length)

/-- The pieces of a list. -/
def pieces (max : Nat) (l : List α) : List (List α) := piecesFrom stop max l.length l

/-- The lines of a list. -/
def lines : List α → List (List α)
  | [] => []
  | c :: l =>
      if stop c then [c] :: lines l
      else
        match lines l with
        | [] => [[c]]
        | p :: ps => (c :: p) :: ps

/-- The reader was stopped at the end of the piece. -/
def ended (p : List α) : Bool := p.getLast?.any stop

/-- The piece is one that the reader ends before the list does. -/
def whole (max : Nat) (p : List α) : Bool := p.length == max || ended stop p

/-- The reader is not stopped in the list. -/
def Free (l : List α) : Prop := ∀ c ∈ l, stop c = false

instance (l : List α) : Decidable (Free stop l) := inferInstanceAs (Decidable (∀ c ∈ l, stop c = false))

end

variable {α : Type} {S : α → Bool}

/-! ### Where the reader stops -/

section

variable {l p q r : List α} {c : α} {n M : Nat}

theorem free_nil : Free S [] := fun _ h => absurd h List.not_mem_nil

theorem free_cons (hc : S c = false) (hl : Free S l) : Free S (c :: l) := by
  intro d hd
  rcases List.mem_cons.mp hd with rfl | hd
  · exact hc
  · exact hl d hd

theorem Free.append (hp : Free S p) (hq : Free S q) : Free S (p ++ q) := by
  intro c hc
  rcases List.mem_append.mp hc with hc | hc
  · exact hp c hc
  · exact hq c hc

theorem ended_nil : ended S [] = false := rfl

theorem ended_concat (p : List α) (c : α) : ended S (p ++ [c]) = S c := by
  unfold ended
  rw [List.getLast?_concat]
  rfl

theorem ended_append (hq : q ≠ []) : ended S (p ++ q) = ended S q := by
  unfold ended
  rw [List.getLast?_append_of_ne_nil p hq]

theorem ended_cons (hl : l ≠ []) : ended S (c :: l) = ended S l := ended_append (p := [c]) hl

theorem exists_concat_of_ended (h : ended S p = true) : ∃ q c, p = q ++ [c] ∧ S c = true := by
  rcases List.eq_nil_or_concat' p with rfl | ⟨q, c, rfl⟩
  · exact absurd h Bool.false_ne_true
  · exact ⟨q, c, rfl, (ended_concat q c).symm.trans h⟩

theorem ne_nil_of_ended (h : ended S p = true) : p ≠ [] := by
  rintro rfl
  exact Bool.false_ne_true h

theorem Free.not_ended (h : Free S p) : ended S p = false := by
  rcases List.eq_nil_or_concat' p with rfl | ⟨q, c, rfl⟩
  · rfl
  · rw [ended_concat]
    exact h c (List.mem_append.mpr (.inr List.mem_cons_self))

end

/-! ### The first piece -/

section

variable {l p q r : List α} {c : α} {n M : Nat}

theorem piece_zero (l : List α) : piece S 0 l = [] := by
  unfold piece
  rfl

theorem piece_nil (n : Nat) : piece S n [] = [] := by
  cases n <;> rfl

theorem piece_of_stop (n : Nat) (l : List α) (hc : S c = true) : piece S (n + 1) (c :: l) = [c] :=
  if_pos hc

theorem piece_of_go (n : Nat) (l : List α) (hc : S c = false) :
    piece S (n + 1) (c :: l) = c :: piece S n l := by
  show (if S c = true then _ else _ : List α) = _
  rw [if_neg (by rw [hc]; exact Bool.false_ne_true)]

theorem piece_length_le (n : Nat) (l : List α) : (piece S n l).length ≤ n := by
  induction l generalizing n with
  | nil =>
      rw [piece_nil]
      exact Nat.zero_le n
  | cons c l ih =>
      cases n with
      | zero => exact Nat.le_refl 0
      | succ n =>
          cases hc : S c with
          | true =>
              rw [piece_of_stop n l hc]
              exact Nat.succ_le_succ (Nat.zero_le n)
          | false =>
              rw [piece_of_go n l hc]
              exact Nat.succ_le_succ (ih n)

/-- Nothing is lost behind the first piece. -/
theorem piece_append_drop (n : Nat) (l : List α) :
    piece S n l ++ l.drop (piece S n l).length = l := by
  induction l generalizing n with
  | nil =>
      rw [piece_nil]
      rfl
  | cons c l ih =>
      cases n with
      | zero => rfl
      | succ n =>
          cases hc : S c with
          | true =>
              rw [piece_of_stop n l hc]
              rfl
          | false =>
              rw [piece_of_go n l hc]
              exact congrArg (c :: ·) (ih n)

theorem piece_ne_nil (hn : 0 < n) (hl : l ≠ []) : piece S n l ≠ [] := by
  obtain ⟨m, rfl⟩ := Nat.exists_eq_succ_of_ne_zero (Nat.ne_of_gt hn)
  obtain ⟨c, l, rfl⟩ := List.exists_cons_of_ne_nil hl
  cases hc : S c with
  | true =>
      rw [piece_of_stop m l hc]
      exact List.cons_ne_nil c []
  | false =>
      rw [piece_of_go m l hc]
      exact List.cons_ne_nil _ _

/-- The reader goes on behind what it has read. -/
theorem piece_append (hp : Free S p) (hlen : p.length ≤ n) :
    piece S n (p ++ l) = p ++ piece S (n - p.length) l := by
  induction p generalizing n with
  | nil => rfl
  | cons c p ih =>
      obtain ⟨m, rfl⟩ := Nat.exists_eq_succ_of_ne_zero (Nat.ne_of_gt (Nat.lt_of_lt_of_le (Nat.succ_pos _) hlen))
      rw [List.cons_append, piece_of_go m _ (hp c List.mem_cons_self)]
      have hrest := ih (fun d hd => hp d (List.mem_cons_of_mem _ hd)) (Nat.le_of_succ_le_succ hlen)
      rw [hrest, List.length_cons, Nat.succ_sub_succ]
      rfl

/-- A shorter piece is the start of a longer one. -/
theorem piece_take {m : Nat} (h : n ≤ m) (l : List α) : piece S n l = (piece S m l).take n := by
  induction l generalizing n m with
  | nil => rw [piece_nil, piece_nil, List.take_nil]
  | cons c l ih =>
      cases n with
      | zero => rw [piece_zero, List.take_zero]
      | succ n =>
          obtain ⟨m, rfl⟩ := Nat.exists_eq_add_one_of_ne_zero (Nat.ne_of_gt (Nat.zero_lt_of_lt h))
          cases hc : S c with
          | true => rw [piece_of_stop n l hc, piece_of_stop m l hc, List.take_succ_cons, List.take_nil]
          | false => rw [piece_of_go n l hc, piece_of_go m l hc, List.take_succ_cons, ih (Nat.le_of_succ_le_succ h)]

theorem piece_of_free (hp : Free S p) (hlen : p.length ≤ n) : piece S n p = p := by
  have h := piece_append (l := []) hp hlen
  rwa [List.append_nil, piece_nil, List.append_nil] at h

/-- A piece that has the greatest length. -/
theorem piece_of_length (hp : Free S p) (hlen : p.length = n) (l : List α) : piece S n (p ++ l) = p := by
  rw [piece_append hp (Nat.le_of_eq hlen), hlen, Nat.sub_self, piece_zero, List.append_nil]

/-- A piece at whose end the reader is stopped. -/
theorem piece_of_ended (hp : Free S p) (hc : S c = true) (hlen : p.length < n) (l : List α) :
    piece S n (p ++ c :: l) = p ++ [c] := by
  rw [piece_append hp (Nat.le_of_lt hlen)]
  obtain ⟨m, hm⟩ := Nat.exists_eq_succ_of_ne_zero (Nat.ne_of_gt (Nat.sub_pos_of_lt hlen))
  rw [hm, piece_of_stop m l hc]

/-- The reader is stopped at the end of a piece only. -/
theorem piece_cases (n : Nat) (l : List α) :
    Free S (piece S n l) ∨ ∃ q c, piece S n l = q ++ [c] ∧ Free S q ∧ S c = true := by
  induction l generalizing n with
  | nil =>
      rw [piece_nil]
      exact .inl free_nil
  | cons c l ih =>
      cases n with
      | zero =>
          rw [piece_zero]
          exact .inl free_nil
      | succ n =>
          cases hc : S c with
          | true =>
              rw [piece_of_stop n l hc]
              exact .inr ⟨[], c, rfl, free_nil, hc⟩
          | false =>
              rw [piece_of_go n l hc]
              rcases ih n with hfree | ⟨q, d, hq, hfree, hd⟩
              · exact .inl (free_cons hc hfree)
              · rw [hq]
                exact .inr ⟨c :: q, d, rfl, free_cons hc hfree, hd⟩

/-- A piece that is not whole is all that there is. -/
theorem piece_eq_self (h : whole S n (piece S n l) = false) : piece S n l = l ∧ Free S l := by
  obtain ⟨hlen, hend⟩ := Bool.or_eq_false_iff.mp h
  induction l generalizing n with
  | nil => exact ⟨piece_nil n, free_nil⟩
  | cons c l ih =>
      cases n with
      | zero =>
          rw [piece_zero] at hlen
          cases hlen
      | succ n =>
          cases hc : S c with
          | true =>
              rw [piece_of_stop n l hc] at hend
              have hlast : ended S [c] = S c := ended_concat [] c
              rw [hlast, hc] at hend
              cases hend
          | false =>
              rw [piece_of_go n l hc] at hlen hend ⊢
              have hlen' : ((piece S n l).length == n) = false := by
                rw [List.length_cons] at hlen
                exact beq_eq_false_iff_ne.mpr fun h => beq_eq_false_iff_ne.mp hlen (congrArg (· + 1) h)
              have hend' : ended S (piece S n l) = false := by
                by_cases hnil : piece S n l = []
                · rw [hnil]
                  rfl
                · rwa [ended_cons hnil] at hend
              obtain ⟨heq, hfree⟩ := ih (by rw [whole, hlen', hend', Bool.or_false]) hlen' hend'
              exact ⟨congrArg (c :: ·) heq, free_cons hc hfree⟩

end

/-! ### All pieces -/

section

variable {l p r : List α} {M : Nat}

theorem piecesFrom_of_le (hmax : 0 < M) {fuel : Nat} (h : l.length ≤ fuel) :
    piecesFrom S M fuel l = pieces S M l := by
  -- each piece takes at least one element
  have hstep : ∀ {m n : Nat} {l : List α}, l.length ≤ m → l.length ≤ n →
      piecesFrom S M m l = piecesFrom S M n l := by
    intro m
    induction m with
    | zero =>
        intro n l hm _
        rw [List.length_eq_zero_iff.mp (Nat.le_zero.mp hm)]
        cases n <;> rfl
    | succ m ih =>
        intro n l hm hn
        cases l with
        | nil => cases n <;> rfl
        | cons c l =>
            obtain ⟨n, rfl⟩ := Nat.exists_eq_succ_of_ne_zero (Nat.ne_of_gt (Nat.lt_of_lt_of_le (Nat.succ_pos _) hn))
            have hpos : 0 < (piece S M (c :: l)).length :=
              List.length_pos_of_ne_nil (piece_ne_nil hmax (List.cons_ne_nil c l))
            have hdrop : ((c :: l).drop (piece S M (c :: l)).length).length ≤ l.length := by
              rw [List.length_drop, List.length_cons]
              omega
            have hrest := ih (Nat.le_trans hdrop (Nat.le_of_succ_le_succ hm))
              (Nat.le_trans hdrop (Nat.le_of_succ_le_succ hn))
            show piece S M (c :: l) :: _ = piece S M (c :: l) :: _
            rw [hrest]
  exact hstep h (Nat.le_refl _)

theorem pieces_nil : pieces S M ([] : List α) = [] := rfl

theorem pieces_eq (hmax : 0 < M) (hl : l ≠ []) :
    pieces S M l = piece S M l :: pieces S M (l.drop (piece S M l).length) := by
  obtain ⟨c, l, rfl⟩ := List.exists_cons_of_ne_nil hl
  have hpos : 0 < (piece S M (c :: l)).length :=
    List.length_pos_of_ne_nil (piece_ne_nil hmax (List.cons_ne_nil c l))
  have hdrop : ((c :: l).drop (piece S M (c :: l)).length).length ≤ l.length := by
    rw [List.length_drop, List.length_cons]
    omega
  show piece S M (c :: l) :: piecesFrom S M l.length _ = _
  rw [piecesFrom_of_le hmax hdrop]

/-- The rule of induction of `pieces`. -/
theorem pieces_induction {P : List α → Prop} (hmax : 0 < M) (hnil : P [])
    (hstep : ∀ l, l ≠ [] → P (l.drop (piece S M l).length) → P l) (l : List α) : P l := by
  induction hn : l.length using Nat.strongRecOn generalizing l with
  | ind n ih =>
      by_cases hl : l = []
      · rw [hl]
        exact hnil
      · have hpos : 0 < (piece S M l).length := List.length_pos_of_ne_nil (piece_ne_nil hmax hl)
        have hpos' : 0 < l.length := List.length_pos_of_ne_nil hl
        refine hstep l hl (ih _ ?_ _ rfl)
        rw [List.length_drop, ← hn]
        omega

/-- Nothing is lost. -/
theorem pieces_flatten (hmax : 0 < M) (l : List α) : (pieces S M l).flatten = l := by
  induction l using pieces_induction (S := S) hmax with
  | hnil => rfl
  | hstep l hl ih =>
      rw [pieces_eq hmax hl, List.flatten_cons, ih]
      exact piece_append_drop M l

/-- Every piece is the first one of what is left. -/
theorem exists_of_mem_pieces (hmax : 0 < M) (h : p ∈ pieces S M l) :
    ∃ r, r ≠ [] ∧ p = piece S M r := by
  induction l using pieces_induction (S := S) hmax with
  | hnil => exact absurd h List.not_mem_nil
  | hstep l hl ih =>
      rw [pieces_eq hmax hl] at h
      rcases List.mem_cons.mp h with rfl | h
      · exact ⟨l, hl, rfl⟩
      · exact ih h

/-- What follows an ended list is cut as if it stood alone. -/
theorem pieces_append (hmax : 0 < M) (hl : l = [] ∨ ended S l = true) (r : List α) :
    pieces S M (l ++ r) = pieces S M l ++ pieces S M r := by
  induction l using pieces_induction (S := S) hmax with
  | hnil => rfl
  | hstep l hne ih =>
      have hend : ended S l = true := hl.resolve_left hne
      -- the piece of the longer list is the one of the shorter
      have hpiece : piece S M (l ++ r) = piece S M l := by
        have hsplit : l ++ r = piece S M l ++ (l.drop (piece S M l).length ++ r) := by
          rw [← List.append_assoc, piece_append_drop]
        rcases piece_cases (S := S) M l with hfree | ⟨q, c, hq, hfree, hc⟩
        · cases hwhole : whole S M (piece S M l) with
          | true =>
              rcases Bool.or_eq_true_iff.mp hwhole with hlen | hend'
              · rw [hsplit]
                exact piece_of_length hfree (beq_iff_eq.mp hlen) _
              · rw [hfree.not_ended] at hend'
                cases hend'
          | false =>
              obtain ⟨-, hl'⟩ := piece_eq_self hwhole
              rw [hl'.not_ended] at hend
              cases hend
        · have hlen : q.length < M := by
            have h := piece_length_le (S := S) M l
            rw [hq, List.length_append, List.length_singleton] at h
            omega
          rw [hsplit, hq, List.append_assoc]
          exact piece_of_ended hfree hc hlen _
      have hdrop : (l ++ r).drop (piece S M l).length = l.drop (piece S M l).length ++ r := by
        have hle : (piece S M l).length ≤ l.length := by
          have h := congrArg List.length (piece_append_drop (S := S) M l)
          rw [List.length_append] at h
          omega
        rw [List.drop_append_of_le_length hle]
      have hrest : l.drop (piece S M l).length = [] ∨
          ended S (l.drop (piece S M l).length) = true := by
        by_cases hnil : l.drop (piece S M l).length = []
        · exact .inl hnil
        · have h := ended_append (S := S) (p := piece S M l) hnil
          rw [piece_append_drop] at h
          exact .inr (h.symm.trans hend)
      have happ : l ++ r ≠ [] := fun h => hne (List.append_eq_nil_iff.mp h).1
      rw [pieces_eq hmax hne, pieces_eq hmax happ, hpiece, hdrop, ih hrest, List.cons_append]

end

/-! ### Lines -/

section

variable {l p r : List α} {c : α} {M : Nat}

theorem lines_of_stop (l : List α) (hc : S c = true) : lines S (c :: l) = [c] :: lines S l :=
  if_pos hc

theorem lines_of_go (hc : S c = false) {ps : List (List α)} (h : lines S l = p :: ps) :
    lines S (c :: l) = (c :: p) :: ps := by
  show (if S c = true then _ else _ : List (List α)) = _
  rw [if_neg (by rw [hc]; exact Bool.false_ne_true), h]

/-- A line in front of a list. -/
theorem lines_append (hp : Free S p) (hc : S c = true) (l : List α) :
    lines S (p ++ c :: l) = (p ++ [c]) :: lines S l := by
  induction p with
  | nil => exact lines_of_stop l hc
  | cons d p ih =>
      exact lines_of_go (hp d List.mem_cons_self) (ih fun e he => hp e (List.mem_cons_of_mem _ he))

theorem lines_of_free (hp : Free S p) (hne : p ≠ []) : lines S p = [p] := by
  induction p with
  | nil => exact absurd rfl hne
  | cons d p ih =>
      have hd : S d = false := hp d List.mem_cons_self
      cases p with
      | nil =>
          show (if S d = true then _ else _ : List (List α)) = _
          rw [if_neg (by rw [hd]; exact Bool.false_ne_true)]
          rfl
      | cons e p =>
          exact lines_of_go hd (ih (fun a ha => hp a (List.mem_cons_of_mem _ ha)) (List.cons_ne_nil _ _))

/-- A list is empty, or it is a line that is not ended, or a line and a list. -/
theorem lines_cases (S : α → Bool) (l : List α) :
    l = [] ∨ (Free S l ∧ l ≠ []) ∨
      ∃ p c r, l = p ++ c :: r ∧ Free S p ∧ S c = true := by
  induction l with
  | nil => exact .inl rfl
  | cons c l ih =>
      cases hc : S c with
      | true => exact .inr (.inr ⟨[], c, l, rfl, free_nil, hc⟩)
      | false =>
          rcases ih with rfl | ⟨hfree, -⟩ | ⟨p, d, r, rfl, hfree, hd⟩
          · exact .inr (.inl ⟨free_cons hc free_nil, List.cons_ne_nil _ _⟩)
          · exact .inr (.inl ⟨free_cons hc hfree, List.cons_ne_nil _ _⟩)
          · exact .inr (.inr ⟨c :: p, d, r, rfl, free_cons hc hfree, hd⟩)

/-- The rule of induction of `lines`. -/
theorem lines_induction {P : List α → Prop} (hnil : P []) (hlast : ∀ l, Free S l → l ≠ [] → P l)
    (hstep : ∀ p c r, Free S p → S c = true → P r → P (p ++ c :: r)) (l : List α) : P l := by
  induction hn : l.length using Nat.strongRecOn generalizing l with
  | ind n ih =>
      rcases lines_cases S l with rfl | ⟨hfree, hne⟩ | ⟨p, c, r, rfl, hfree, hc⟩
      · exact hnil
      · exact hlast l hfree hne
      · refine hstep p c r hfree hc (ih _ ?_ r rfl)
        rw [← hn, List.length_append, List.length_cons]
        omega

theorem lines_flatten (l : List α) : (lines S l).flatten = l := by
  induction l using lines_induction (S := S) with
  | hnil => rfl
  | hlast l hfree hne => rw [lines_of_free hfree hne, List.flatten_singleton]
  | hstep p c r hfree hc ih =>
      rw [lines_append hfree hc, List.flatten_cons, ih, List.append_assoc]
      rfl

/-- What follows an ended list has lines of its own. -/
theorem lines_append_of_ended (hl : l = [] ∨ ended S l = true) (r : List α) :
    lines S (l ++ r) = lines S l ++ lines S r := by
  induction l using lines_induction (S := S) with
  | hnil => rfl
  | hlast l hfree hne =>
      have hend := hl.resolve_left hne
      rw [hfree.not_ended] at hend
      cases hend
  | hstep p c l hfree hc ih =>
      have hrest : l = [] ∨ ended S l = true := by
        by_cases hnil : l = []
        · exact .inl hnil
        · have hsplit : p ++ c :: l = (p ++ [c]) ++ l := List.append_cons p c l
          have hend := hl.resolve_left (fun h => List.cons_ne_nil c l (List.append_eq_nil_iff.mp h).2)
          rw [hsplit, ended_append hnil] at hend
          exact .inr hend
      rw [List.append_assoc, List.cons_append, lines_append hfree hc, lines_append hfree hc, ih hrest,
        List.cons_append]

/-- The pieces of a list are the pieces of its lines. -/
theorem pieces_eq_flatMap_lines (hmax : 0 < M) (l : List α) :
    pieces S M l = (lines S l).flatMap (pieces S M) := by
  induction l using lines_induction (S := S) with
  | hnil => rfl
  | hlast l hfree hne => rw [lines_of_free hfree hne, List.flatMap_singleton]
  | hstep p c r hfree hc ih =>
      have hend : ended S (p ++ [c]) = true := (ended_concat p c).trans hc
      rw [lines_append hfree hc, List.flatMap_cons, ← ih, List.append_cons]
      exact pieces_append hmax (.inr hend) r

/-- A line that is short enough is a piece. -/
theorem pieces_of_short (hp : Free S p) (hc : S c = true) (hlen : p.length < M) :
    pieces S M (p ++ [c]) = [p ++ [c]] := by
  have hne : p ++ [c] ≠ [] := List.append_ne_nil_of_right_ne_nil p (List.cons_ne_nil c [])
  rw [pieces_eq (Nat.lt_of_le_of_lt (Nat.zero_le _) hlen) hne, piece_of_ended hp hc hlen [], List.drop_length]
  rfl

/-- There are no more pieces than elements. -/
theorem pieces_length_le (hmax : 0 < M) (l : List α) : (pieces S M l).length ≤ l.length := by
  induction l using pieces_induction (S := S) hmax with
  | hnil => exact Nat.le_refl _
  | hstep l hl ih =>
      have hpos := List.length_pos_of_ne_nil (piece_ne_nil (S := S) hmax hl)
      have hlen := List.length_pos_of_ne_nil hl
      rw [pieces_eq hmax hl, List.length_cons]
      rw [List.length_drop] at ih
      omega

/-- The lines before another one are ended. -/
theorem lines_split {ps qs : List (List α)} (h : lines S l = ps ++ qs) (hq : qs ≠ []) :
    ps.flatten = [] ∨ ended S ps.flatten = true := by
  induction l using lines_induction (S := S) generalizing ps with
  | hnil => exact absurd (List.append_eq_nil_iff.mp h.symm).2 hq
  | hlast l hfree hne =>
      rw [lines_of_free hfree hne] at h
      cases ps with
      | nil => exact .inl rfl
      | cons p ps => exact absurd (List.append_eq_nil_iff.mp (List.cons.inj h).2.symm).2 hq
  | hstep p c r hfree hc ih =>
      rw [lines_append hfree hc] at h
      cases ps with
      | nil => exact .inl rfl
      | cons q ps =>
          obtain ⟨rfl, htail⟩ := List.cons.inj h
          right
          rw [List.flatten_cons]
          rcases ih htail with hnil | hend
          · rw [hnil, List.append_nil, ended_concat]
            exact hc
          · rw [ended_append (ne_nil_of_ended hend)]
            exact hend

/-- The lines before another one are the lines of what they hold. -/
theorem lines_of_lines {ps qs : List (List α)} (h : lines S l = ps ++ qs) : lines S ps.flatten = ps := by
  induction l using lines_induction (S := S) generalizing ps with
  | hnil =>
      obtain rfl := (List.append_eq_nil_iff.mp h.symm).1
      rfl
  | hlast l hfree hne =>
      cases ps with
      | nil => rfl
      | cons p ps =>
          have hlines := h
          rw [lines_of_free hfree hne] at h
          obtain ⟨rfl, htail⟩ := List.cons.inj h
          obtain rfl := (List.append_eq_nil_iff.mp htail.symm).1
          rw [List.flatten_singleton, lines_of_free hfree hne]
  | hstep p c r hfree hc ih =>
      rw [lines_append hfree hc] at h
      cases ps with
      | nil => rfl
      | cons q ps =>
          obtain ⟨rfl, htail⟩ := List.cons.inj h
          rw [List.flatten_cons, ← List.append_cons, lines_append hfree hc, ih htail]

/-- The pieces before a line are those of the lines before it. -/
theorem pieces_of_lines (hmax : 0 < M) {ps qs : List (List α)} (h : lines S l = ps ++ qs) :
    pieces S M l = pieces S M ps.flatten ++ pieces S M qs.flatten := by
  have hflat : l = ps.flatten ++ qs.flatten := by
    rw [← List.flatten_append, ← h, lines_flatten]
  by_cases hq : qs = []
  · rw [hflat, hq, List.flatten_nil, List.append_nil, pieces_nil, List.append_nil]
  · rw [hflat]
    exact pieces_append hmax (lines_split h hq) _

/-- A reader that is stopped somewhere ends its first piece before the list ends. -/
theorem whole_of_not_free (h : ¬ Free S l) : whole S M (piece S M l) = true := by
  cases hwhole : whole S M (piece S M l) with
  | true => rfl
  | false => exact absurd (piece_eq_self hwhole).2 h

/-- Pieces are cut by what `S` picks only. -/
theorem map_piece {β : Type} {f : α → β} {S' : β → Bool} (hf : ∀ c, S' (f c) = S c) (n : Nat) (l : List α) :
    (piece S n l).map f = piece S' n (l.map f) := by
  induction l generalizing n with
  | nil => rw [piece_nil, List.map_nil, piece_nil]
  | cons c l ih =>
      cases n with
      | zero => rw [piece_zero, piece_zero, List.map_nil]
      | succ n =>
          cases hc : S c with
          | true => rw [piece_of_stop n l hc, List.map_singleton, List.map_cons, piece_of_stop n _ ((hf c).trans hc)]
          | false => rw [piece_of_go n l hc, List.map_cons, List.map_cons, piece_of_go n _ ((hf c).trans hc), ih n]

end

/-! ### Lines that are pieces -/

section

variable {l line p : List α} {M : Nat}

theorem line_cases (h : line ∈ lines S l) :
    (Free S line ∧ line ≠ []) ∨ ∃ q c, line = q ++ [c] ∧ Free S q ∧ S c = true := by
  induction l using lines_induction (S := S) with
  | hnil => exact absurd h List.not_mem_nil
  | hlast l hfree hne =>
      rw [lines_of_free hfree hne] at h
      obtain rfl := List.mem_singleton.mp h
      exact .inl ⟨hfree, hne⟩
  | hstep q c r hfree hc ih =>
      rw [lines_append hfree hc] at h
      rcases List.mem_cons.mp h with rfl | h
      · exact .inr ⟨q, c, rfl, hfree, hc⟩
      · exact ih h

theorem line_ne_nil (h : line ∈ lines S l) : line ≠ [] := by
  rcases line_cases h with ⟨-, hne⟩ | ⟨q, c, rfl, -, -⟩
  · exact hne
  · exact List.append_ne_nil_of_right_ne_nil q (List.cons_ne_nil c [])

/-- The lines of an ended list are ended. -/
theorem line_ended (hl : l = [] ∨ ended S l = true) (h : line ∈ lines S l) : ended S line = true := by
  induction l using lines_induction (S := S) with
  | hnil => exact absurd h List.not_mem_nil
  | hlast l hfree hne =>
      have hend := hl.resolve_left hne
      rw [hfree.not_ended] at hend
      cases hend
  | hstep q c r hfree hc ih =>
      rw [lines_append hfree hc] at h
      rcases List.mem_cons.mp h with rfl | h
      · exact (ended_concat q c).trans hc
      · refine ih ?_ h
        by_cases hr : r = []
        · exact .inl hr
        · have hend := hl.resolve_left (List.append_ne_nil_of_right_ne_nil q (List.cons_ne_nil c r))
          rw [List.append_cons, ended_append hr] at hend
          exact .inr hend

theorem pieces_of_line (hmax : 0 < M) (h : line ∈ lines S l) (hlen : line.length ≤ M) :
    pieces S M line = [line] := by
  rcases line_cases h with ⟨hfree, hne⟩ | ⟨q, c, rfl, hfree, hc⟩
  · rw [pieces_eq hmax hne, piece_of_free hfree hlen, List.drop_length]
    rfl
  · refine pieces_of_short hfree hc ?_
    rwa [List.length_append] at hlen

theorem pieces_ne_nil (hmax : 0 < M) (hl : l ≠ []) : pieces S M l ≠ [] := by
  rw [pieces_eq hmax hl]
  exact List.cons_ne_nil _ _

/-- A line that is too long is more than one piece. -/
theorem one_lt_pieces (hmax : 0 < M) (hlen : M < l.length) : 1 < (pieces S M l).length := by
  have hne : l ≠ [] := List.ne_nil_of_length_pos (Nat.lt_of_le_of_lt (Nat.zero_le _) hlen)
  have hdrop : l.drop (piece S M l).length ≠ [] := by
    refine List.ne_nil_of_length_pos ?_
    rw [List.length_drop]
    exact Nat.sub_pos_of_lt (Nat.lt_of_le_of_lt (piece_length_le M l) hlen)
  rw [pieces_eq hmax hne, List.length_cons]
  exact Nat.succ_lt_succ (List.length_pos_of_ne_nil (pieces_ne_nil hmax hdrop))

/-- Lines that are short enough are the pieces. -/
theorem pieces_eq_lines (hmax : 0 < M) (h : ∀ line ∈ lines S l, line.length ≤ M) :
    pieces S M l = lines S l := by
  rw [pieces_eq_flatMap_lines hmax]
  have hflat : ∀ ls : List (List α), (∀ line ∈ ls, pieces S M line = [line]) → ls.flatMap (pieces S M) = ls := by
    intro ls hls
    induction ls with
    | nil => rfl
    | cons line ls ih =>
        rw [List.flatMap_cons, hls line List.mem_cons_self, ih fun q hq => hls q (List.mem_cons_of_mem _ hq)]
        rfl
  exact hflat _ fun line hline => pieces_of_line hmax hline (h line hline)

/-- Each line is one piece or more. -/
theorem length_flatMap_pieces (hmax : 0 < M) {ls : List (List α)} (hls : ∀ line ∈ ls, line ≠ []) :
    ls.length ≤ (ls.flatMap (pieces S M)).length ∧
      ((ls.flatMap (pieces S M)).length = ls.length → ∀ line ∈ ls, line.length ≤ M) := by
  induction ls with
  | nil => exact ⟨Nat.le_refl _, fun _ line h => absurd h List.not_mem_nil⟩
  | cons q ls ih =>
      obtain ⟨hle, hshort⟩ := ih fun line h => hls line (List.mem_cons_of_mem q h)
      have hone := List.length_pos_of_ne_nil (pieces_ne_nil (S := S) hmax (hls q List.mem_cons_self))
      rw [List.flatMap_cons, List.length_append, List.length_cons]
      refine ⟨by omega, fun heq line hline => ?_⟩
      rcases List.mem_cons.mp hline with rfl | hline
      · by_contra hlong
        have htwo := one_lt_pieces (S := S) hmax (Nat.lt_of_not_le hlong)
        omega
      · exact hshort (by omega) line hline

/-- There are as many pieces as lines only where all lines are short enough. -/
theorem pieces_length_eq_iff (hmax : 0 < M) :
    (pieces S M l).length = (lines S l).length ↔ ∀ line ∈ lines S l, line.length ≤ M := by
  constructor
  · intro hlen
    rw [pieces_eq_flatMap_lines hmax] at hlen
    exact (length_flatMap_pieces hmax fun line h => line_ne_nil h).2 hlen
  · intro h
    rw [pieces_eq_lines hmax h]

theorem line_of_mem_pieces (hmax : 0 < M) (h : p ∈ pieces S M l) :
    Free S p ∨ ∃ q c, p = q ++ [c] ∧ Free S q ∧ S c = true := by
  obtain ⟨r, -, rfl⟩ := exists_of_mem_pieces hmax h
  exact piece_cases M r

end

/-! ### Pieces that are counted as lines -/

section

variable {l : List α} {L P : List (List α)} {M a b : Nat}

theorem flatten_take_le (h : a ≤ b) : (P.take a).flatten.length ≤ (P.take b).flatten.length := by
  obtain ⟨k, rfl⟩ := Nat.exists_eq_add_of_le h
  rw [List.take_add, List.flatten_append, List.length_append]
  exact Nat.le_add_right _ _

theorem flatten_take_lt (hps : ∀ p ∈ P, p ≠ []) (h : a < b) (ha : a < P.length) :
    (P.take a).flatten.length < (P.take b).flatten.length := by
  have hne := List.length_pos_of_ne_nil (hps _ (List.getElem_mem ha))
  have hnext : (P.take (a + 1)).flatten.length = (P.take a).flatten.length + P[a].length := by
    rw [List.take_succ_eq_append_getElem ha, List.flatten_append, List.length_append, List.flatten_singleton]
  have hle := flatten_take_le (P := P) (a := a + 1) (b := b) h
  omega

theorem flatten_flatMap_pieces (hmax : 0 < M) (L : List (List α)) :
    (L.flatMap (pieces S M)).flatten = L.flatten := by
  induction L with
  | nil => rfl
  | cons q L ih => rw [List.flatMap_cons, List.flatten_append, pieces_flatten hmax, ih, List.flatten_cons]

theorem flatMap_pieces_ne_nil (hmax : 0 < M) {p : List α} (h : p ∈ L.flatMap (pieces S M)) : p ≠ [] := by
  obtain ⟨q, -, hp⟩ := List.mem_flatMap.mp h
  obtain ⟨r, hr, rfl⟩ := exists_of_mem_pieces hmax hp
  exact piece_ne_nil hmax hr

/-- As many pieces as lines hold no more than these. -/
theorem flatten_take_pieces_le (hmax : 0 < M) (hls : ∀ line ∈ L, line ≠ []) (k : Nat) :
    ((L.flatMap (pieces S M)).take k).flatten.length ≤ (L.take k).flatten.length := by
  induction L generalizing k with
  | nil => exact Nat.le_refl _
  | cons q L ih =>
      cases k with
      | zero => exact Nat.le_refl _
      | succ k =>
          have hone := List.length_pos_of_ne_nil (pieces_ne_nil (S := S) hmax (hls q List.mem_cons_self))
          have hq : ((pieces S M q).take (k + 1)).flatten.length ≤ q.length := by
            have h := flatten_take_le (P := pieces S M q) (Nat.le_max_left (k + 1) (pieces S M q).length)
            rwa [List.take_of_length_le (Nat.le_max_right _ _), pieces_flatten hmax] at h
          have hrest := ih (fun line h => hls line (List.mem_cons_of_mem q h)) k
          have hfewer := flatten_take_le (P := L.flatMap (pieces S M)) (a := k + 1 - (pieces S M q).length) (b := k)
            (by omega)
          rw [List.flatMap_cons, List.take_append, List.flatten_append, List.length_append, List.take_succ_cons,
            List.flatten_cons, List.length_append]
          omega

/-- Fewer pieces than lines hold less than these, if there are more pieces. -/
theorem flatten_take_pieces_lt (hmax : 0 < M) (hls : ∀ line ∈ L, line ≠ []) (h : a < b)
    (ha : a < (L.flatMap (pieces S M)).length) :
    ((L.flatMap (pieces S M)).take a).flatten.length < (L.take b).flatten.length := by
  by_cases hlines : a < L.length
  · exact Nat.lt_of_le_of_lt (flatten_take_pieces_le hmax hls a) (flatten_take_lt hls h hlines)
  · have hall := flatten_take_lt (fun p hp => flatMap_pieces_ne_nil (S := S) hmax hp) ha ha
    rw [List.take_length, flatten_flatMap_pieces hmax] at hall
    rwa [List.take_of_length_le (by omega : L.length ≤ b)]

/-- As many pieces as lines hold the same exactly if these lines are short enough, or if there are no more pieces. -/
theorem flatten_take_pieces_eq_iff (hmax : 0 < M) (hls : ∀ line ∈ L, ∃ l, line ∈ lines S l) (k : Nat) :
    ((L.flatMap (pieces S M)).take k).flatten.length = (L.take k).flatten.length ↔
      (L.flatMap (pieces S M)).length ≤ k ∨ ∀ line ∈ L.take k, line.length ≤ M := by
  have hne : ∀ line ∈ L, line ≠ [] := fun line h => line_ne_nil (hls line h).choose_spec
  by_cases hall : (L.flatMap (pieces S M)).length ≤ k
  · have hlines := Nat.le_trans (length_flatMap_pieces (S := S) hmax hne).1 hall
    rw [List.take_of_length_le hall, List.take_of_length_le hlines, flatten_flatMap_pieces hmax]
    exact ⟨fun _ => .inl hall, fun _ => rfl⟩
  refine ⟨fun heq => .inr ?_, fun h => ?_⟩
  · induction L generalizing k with
    | nil => exact absurd (Nat.zero_le k) hall
    | cons q L ih =>
        cases k with
        | zero => exact fun line h => absurd h List.not_mem_nil
        | succ k =>
            have hrest : ∀ line ∈ L, line ≠ [] := fun line h => hne line (List.mem_cons_of_mem q h)
            rw [List.flatMap_cons, List.length_append] at hall
            rw [List.flatMap_cons, List.take_append, List.flatten_append, List.length_append, List.take_succ_cons,
              List.flatten_cons, List.length_append] at heq
            by_cases hq : q.length ≤ M
            · obtain ⟨l, hl⟩ := hls q List.mem_cons_self
              have hone : (pieces S M q).length = 1 := congrArg List.length (pieces_of_line hmax hl hq)
              rw [List.take_of_length_le (by omega), pieces_flatten hmax, hone, Nat.add_sub_cancel] at heq
              intro line hline
              rcases List.mem_cons.mp hline with rfl | hline
              · exact hq
              · exact ih (fun line h => hls line (List.mem_cons_of_mem q h)) k hrest (by omega) (by omega) line hline
            · have htwo := one_lt_pieces (S := S) hmax (Nat.lt_of_not_le hq)
              have hpieces : ∀ p ∈ pieces S M q, p ≠ [] := fun p hp => by
                obtain ⟨r, hr, rfl⟩ := exists_of_mem_pieces hmax hp
                exact piece_ne_nil hmax hr
              by_cases hfew : k + 1 < (pieces S M q).length
              · have hless := flatten_take_lt hpieces hfew hfew
                rw [List.take_length, pieces_flatten hmax] at hless
                have hnone : k + 1 - (pieces S M q).length = 0 := by omega
                rw [hnone, List.take_zero, List.flatten_nil, List.length_nil] at heq
                omega
              · have hless := flatten_take_pieces_lt (S := S) (L := L) (a := k + 1 - (pieces S M q).length)
                  (b := k) hmax hrest (by omega) (by omega)
                rw [List.take_of_length_le (by omega : (pieces S M q).length ≤ k + 1), pieces_flatten hmax] at heq
                omega
  · obtain hshort := h.resolve_left hall
    have hsplit : ∀ (L : List (List α)) (k : Nat), (∀ line ∈ L, ∃ l, line ∈ lines S l) →
        (∀ line ∈ L.take k, line.length ≤ M) → (L.flatMap (pieces S M)).take k = L.take k := by
      intro L
      induction L with
      | nil => exact fun _ _ _ => rfl
      | cons q L ih =>
          intro k hls hshort
          cases k with
          | zero => rfl
          | succ k =>
              obtain ⟨l, hl⟩ := hls q List.mem_cons_self
              rw [List.take_succ_cons] at hshort ⊢
              rw [List.flatMap_cons, pieces_of_line hmax hl (hshort q List.mem_cons_self), List.singleton_append,
                List.take_succ_cons, ih k (fun line h => hls line (List.mem_cons_of_mem q h))
                  fun line h => hshort line (List.mem_cons_of_mem q h)]
    rw [hsplit L k hls hshort]

/-- A list of lines up to the first one with `q`, and `n` more. -/
def upTo (q : List α → Bool) (n : Nat) (L : List (List α)) : List (List α) :=
  L.takeWhile (!q ·) ++ (L.dropWhile (!q ·)).take (n + 1)

theorem upTo_begins (q : List α → Bool) (n : Nat) (L : List (List α)) : upTo q n L <+: L := by
  conv_rhs => rw [← List.takeWhile_append_dropWhile (p := (!q ·)) (l := L)]
  exact (List.prefix_append_right_inj _).mpr (List.take_prefix _ _)

variable {q q' : List α → Bool}

/-- A line with `q` is a piece with `q'`. So the pieces up to the first one with `q'` and `n` more hold the same as
the lines up to the first one with `q` and `n` more exactly if no piece before has `q'` and these lines are short
enough, or if there are no more pieces. -/
theorem upTo_pieces_iff (hmax : 0 < M) (hq : ∀ line, q line = true → line.length ≤ M ∧ q' line = true) (n : Nat) :
    (upTo q' n (pieces S M l)).flatten = (upTo q n (lines S l)).flatten ↔
      ((pieces S M l).dropWhile (!q' ·)).length ≤ n + 1 ∨
        (∀ line ∈ (lines S l).takeWhile (!q ·), ∀ p ∈ pieces S M line, q' p = false) ∧
          ∀ line ∈ ((lines S l).dropWhile (!q ·)).take (n + 1), line.length ≤ M := by
  have hlines : lines S l = (lines S l).takeWhile (!q ·) ++ (lines S l).dropWhile (!q ·) :=
    List.takeWhile_append_dropWhile.symm
  have hofLine : ∀ line ∈ (lines S l).dropWhile (!q ·), ∃ l, line ∈ lines S l :=
    fun line h => ⟨l, (List.dropWhile_sublist _).subset h⟩
  have hhead : ∀ line rest, (lines S l).dropWhile (!q ·) = line :: rest → q line = true := by
    intro line rest h
    have hnot := List.head_dropWhile_not (!q ·) (w := by rw [h]; exact List.cons_ne_nil _ _) (l := lines S l)
    simp only [h, List.head_cons, Bool.not_eq_false'] at hnot
    exact hnot
  rw [pieces_eq_flatMap_lines hmax]
  unfold upTo
  generalize (lines S l).takeWhile (!q ·) = header at *
  generalize (lines S l).dropWhile (!q ·) = rest at *
  rw [hlines, List.flatMap_append]
  have hfirst : ∀ line ∈ header ++ rest, line ≠ [] := fun line h => line_ne_nil (hlines ▸ h)
  have hheader : ∀ line ∈ header, line ≠ [] := fun line h => hfirst line (List.mem_append_left _ h)
  have hrest : ∀ line ∈ rest, line ≠ [] := fun line h => hfirst line (List.mem_append_right _ h)
  by_cases hok : ∀ line ∈ header, ∀ p ∈ pieces S M line, q' p = false
  · -- the pieces of the header are passed over, and the first piece behind them has `q'`
    have hnone : ∀ p ∈ header.flatMap (pieces S M), (!q' p) = true := by
      intro p hp
      obtain ⟨line, hline, hp⟩ := List.mem_flatMap.mp hp
      rw [hok line hline p hp]
      rfl
    have hstart : (rest.flatMap (pieces S M)).takeWhile (!q' ·) = [] ∧
        (rest.flatMap (pieces S M)).dropWhile (!q' ·) = rest.flatMap (pieces S M) := by
      cases rest with
      | nil => exact ⟨rfl, rfl⟩
      | cons line rest =>
          obtain ⟨hlen, hline⟩ := hq line (hhead line rest rfl)
          obtain ⟨l', hl'⟩ := hofLine line List.mem_cons_self
          have hnot : ¬ (!q' line) = true := by
            rw [hline]
            exact Bool.false_ne_true
          rw [List.flatMap_cons, pieces_of_line hmax hl' hlen, List.singleton_append]
          exact ⟨List.takeWhile_cons_of_neg hnot, List.dropWhile_cons_of_neg hnot⟩
    rw [List.takeWhile_append_of_pos hnone, List.dropWhile_append_of_pos hnone, hstart.1, hstart.2, List.append_nil,
      List.flatten_append, List.flatten_append, flatten_flatMap_pieces hmax, List.append_cancel_left_eq]
    refine Iff.trans ?_ ((flatten_take_pieces_eq_iff hmax hofLine (n + 1)).trans ?_)
    · refine ⟨congrArg List.length, fun hlen => ?_⟩
      have hpieces := List.IsPrefix.flatten (List.take_prefix (n + 1) (rest.flatMap (pieces S M)))
      rw [flatten_flatMap_pieces hmax] at hpieces
      have hlines := List.IsPrefix.flatten (List.take_prefix (n + 1) rest)
      exact (List.prefix_of_prefix_length_le hpieces hlines (Nat.le_of_eq hlen)).eq_of_length hlen
    · exact or_congr_right ⟨fun h => ⟨hok, h⟩, fun h => h.2⟩
  · -- a piece of the header has `q'`
    have hsome : (header.flatMap (pieces S M)).dropWhile (!q' ·) ≠ [] := by
      intro hnil
      refine hok fun line hline p hp => ?_
      have hnot := List.dropWhile_eq_nil_iff.mp hnil p (List.mem_flatMap.mpr ⟨line, hline, hp⟩)
      rwa [Bool.not_eq_true'] at hnot
    have htake : (header.flatMap (pieces S M) ++ rest.flatMap (pieces S M)).takeWhile (!q' ·) =
        (header.flatMap (pieces S M)).takeWhile (!q' ·) := by
      rw [List.takeWhile_append, if_neg]
      intro hlen
      have hall := congrArg List.length
        (List.takeWhile_append_dropWhile (p := (!q' ·)) (l := header.flatMap (pieces S M)))
      rw [List.length_append, hlen] at hall
      exact hsome (List.eq_nil_of_length_eq_zero (by omega))
    have hdrop : (header.flatMap (pieces S M) ++ rest.flatMap (pieces S M)).dropWhile (!q' ·) =
        (header.flatMap (pieces S M)).dropWhile (!q' ·) ++ rest.flatMap (pieces S M) := by
      rw [List.dropWhile_append, if_neg]
      rwa [List.isEmpty_iff]
    have hpassed : (header.flatMap (pieces S M)).takeWhile (!q' ·) ++
        (header.flatMap (pieces S M)).dropWhile (!q' ·) = header.flatMap (pieces S M) :=
      List.takeWhile_append_dropWhile
    have hcover := congrArg (List.length ∘ List.flatten) hpassed
    rw [Function.comp_apply, Function.comp_apply, List.flatten_append, List.length_append, flatten_flatMap_pieces hmax]
      at hcover
    have hpart : ∀ p ∈ (header.flatMap (pieces S M)).dropWhile (!q' ·), p ≠ [] :=
      fun p hp => flatMap_pieces_ne_nil (S := S) hmax ((List.dropWhile_sublist _).subset hp)
    have hlen := List.length_pos_of_ne_nil hsome
    rw [htake, hdrop]
    generalize (header.flatMap (pieces S M)).dropWhile (!q' ·) = part at *
    generalize (header.flatMap (pieces S M)).takeWhile (!q' ·) = passed at *
    refine ⟨fun heq => .inl ?_, fun h => ?_⟩
    · by_contra hmore
      have hlength := congrArg List.length heq
      rw [List.take_append] at hlength
      simp only [List.flatten_append, List.length_append] at hlength hmore
      by_cases hfew : n + 1 < part.length
      · have hless := flatten_take_lt hpart hfew hfew
        have hzero : n + 1 - part.length = 0 := by omega
        rw [List.take_length] at hless
        rw [hzero, List.take_zero, List.flatten_nil, List.length_nil] at hlength
        omega
      · have hless := flatten_take_pieces_lt (S := S) (a := n + 1 - part.length) (b := n + 1) hmax hrest (by omega)
          (by omega)
        rw [List.take_of_length_le (by omega : part.length ≤ n + 1)] at hlength
        omega
    · have hall := h.resolve_right fun h => hok h.1
      have hcount := (length_flatMap_pieces (S := S) hmax hrest).1
      rw [List.take_of_length_le hall]
      rw [List.length_append] at hall
      rw [List.take_of_length_le (by omega : rest.length ≤ n + 1), ← List.append_assoc, hpassed, List.flatten_append,
        List.flatten_append, flatten_flatMap_pieces hmax, flatten_flatMap_pieces hmax]

end

end NullG.Lib
