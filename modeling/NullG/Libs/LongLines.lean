/-
The counter of `tcp_fgets` (`libs/net/tcp.c`).

`n` is a `short`, and `max` is an `int`. Up to 32767 bytes the two agree, and `tcp_fgets` stores a piece of what is left
(`tcpFgets_run` of `Libs/Tcp`). A longer line makes `n` negative: then no `max` above 32767 stops the loop, and what is
returned is not the number of the bytes (`tcpFgets_iff`).
-/

import NullG.Libs.Tcp

namespace NullG.Libs.LongLines

open NullG.Nsp NullG.Lib NullG.Mail

/-- A number that is stored in a `short`. -/
def short (n : Int) : Int := n.bmod (2 ^ 16)

/-- The inner loop of `tcp_fgets`, on the cells from `obuffer` on, of which `size` are held: what it copies, `n` and
`lf`. -/
def copy (max : Nat) : List Byte → Nat → Int → List Byte × Int × Bool
  | _, 0, n => ([], n, false)
  | [], _ + 1, n => ([], n, false)
  | c :: cells, size + 1, n =>
      if n < max then
        if isNl c || cells.head?.any (· == 0) then ([c], short (n + 1), isNl c)
        else
          let (copied, n, lf) := copy max cells size (short (n + 1))
          (c :: copied, n, lf)
      else ([], n, false)

/-- What a call of `tcp_fgets` has stored in front of its NUL, and what it returns; `none` is -1. -/
structure Line where
  stored : List Byte
  rc : Option Int
  deriving DecidableEq

/-- The rounds of `tcp_fgets` from `retry` on; `buffer` was stored before. -/
def fgetsFrom (max : Nat) : Nat → List Byte → Int → TcpSocket → Line × TcpSocket
  | 0, buffer, _, socket => (⟨buffer, none⟩, socket)
  | fuel + 1, buffer, n, socket =>
      match (if socket.recvbuf.size = 0 then refill max socket else (some socket.recvbuf.held, socket)) with
      | (none, socket) => (⟨buffer, none⟩, socket)
      -- the server has closed the connection
      | (some [], socket) => (⟨buffer, some n⟩, socket)
      | (some (_ :: _), socket) =>
          let (copied, n, lf) := copy max (socket.recvbuf.cells.drop socket.recvbuf.offset) socket.recvbuf.size n
          let buffer := buffer ++ copied
          let socket := socket.advance copied.length
          if (max : Int) - 1 < n then (⟨buffer, some n⟩, socket)
          else if !lf then fgetsFrom max fuel buffer n socket.compact
          else (⟨buffer, some n⟩, socket)

/-- `tcp_fgets`, with a round for each byte that is left. -/
def tcpFgets (max : Nat) (socket : TcpSocket) : Line × TcpSocket :=
  fgetsFrom max (socket.pending.length + 1) [] 0 socket

/-- The line fits into `max + 1` bytes with its NUL, and the number of its bytes is returned, or -1 where `recv`
fails. -/
def Line.Counted (max : Nat) (line : Line) : Prop :=
  line.stored.length ≤ max ∧ ∀ n, line.rc = some n → n = line.stored.length

/-- The first line of what is left has at most 32767 bytes. -/
def ShortLine (socket : TcpSocket) : Prop := (piece isNl 32768 socket.pending).length ≤ 32767

/-- All that is left is a part of a line that fits, and `recv` fails behind it. -/
def Fails (max : Nat) (socket : TcpSocket) : Prop :=
  socket.useTls = true ∧ Free isNl socket.pending ∧ socket.pending.length ≤ max

/-! ### The counter -/

/-- The loop that counts with `short` stops where a loop without bounds stops that stores no more than `bound` bytes of
`total`. -/
def Stops (max bound total : Nat) : Prop := ∀ k : Nat, k ≤ bound → k ≤ total → (short k < max ↔ k < bound)

section

variable {max bound total k size : Nat} {n : Int} {cells : List Byte} {socket : TcpSocket}

theorem short_of_le (h : k ≤ 32767) : short k = k := by
  rw [short, Int.bmod]
  omega

theorem short_le (n : Int) : short n ≤ 32767 := by
  rw [short, Int.bmod]
  omega

theorem short_succ (k : Nat) : short (short k + 1) = short (k + 1 : Nat) := by
  rw [short, short, short, Int.bmod_add_bmod]
  rfl

theorem stops_small (h : max ≤ 32767) : Stops max max total := by
  intro k hk _
  rw [short_of_le (hk.trans h)]
  omega

theorem stops_large (h : 32767 < max) (hbound : total < bound) : Stops max bound total := by
  intro k _ htotal
  have hle := short_le k
  omega

theorem copy_eq (hstops : Stops max bound total) (hbound : k ≤ bound) (htotal : k + size ≤ total) :
    copy max cells size (short k) =
      ((LineBuffer.copy isNl (· == 0) bound cells size k).1,
        short (k + (LineBuffer.copy isNl (· == 0) bound cells size k).1.length : Nat),
        (LineBuffer.copy isNl (· == 0) bound cells size k).2) := by
  induction cells generalizing size k with
  | nil => cases size <;> rfl
  | cons c cells ih =>
      cases size with
      | zero => rfl
      | succ size =>
          rw [copy, LineBuffer.copy]
          by_cases hlt : k < bound
          · have hlt' : short k < max := (hstops k hbound (by omega)).mpr hlt
            rw [if_pos hlt, if_pos hlt', short_succ]
            split
            · rfl
            · rw [ih (k := k + 1) hlt (by omega)]
              dsimp only
              rw [List.length_cons, Nat.add_assoc, Nat.add_comm 1]
          · have hnot : ¬ short k < max := fun h => hlt ((hstops k hbound (by omega)).mp h)
            rw [if_neg hlt, if_neg hnot]
            rfl

/-! ### What is stored -/

/-- What the rounds store is a piece of at most `bound` bytes, and what they return is the short that counts it. -/
theorem fgetsFrom_run {fuel : Nat} {buffer : List Byte} (hsound : socket.Sound) (hbuffer : Free isNl buffer)
    (hmax : 0 < max) (hbound : buffer.length < bound) (hstops : Stops max bound (buffer ++ socket.pending).length)
    (hfuel : socket.pending.length < fuel) :
    ∃ socket', socket'.Sound ∧
      buffer ++ socket.pending = piece isNl bound (buffer ++ socket.pending) ++ socket'.pending ∧
      fgetsFrom max fuel buffer (short buffer.length) socket =
        (⟨piece isNl bound (buffer ++ socket.pending),
          if !whole isNl bound (piece isNl bound (buffer ++ socket.pending)) && socket.useTls then none
          else some (short (piece isNl bound (buffer ++ socket.pending)).length)⟩, socket') := by
  induction fuel generalizing buffer socket with
  | zero => exact absurd hfuel (Nat.not_lt_zero _)
  | succ fuel ih =>
      rcases fill_run hsound hmax with ⟨hnone, socket', hrun, hsound', hend, htls, hout⟩ |
        ⟨c, data, start, hrun, hstart, hsize, hpending, htls, hout⟩
      · refine ⟨socket', hsound', ?_⟩
        obtain ⟨hpiece, hpart⟩ := piece_of_rest hbuffer hbound
        rw [hnone, List.append_nil, hpiece, hpart, hend, List.append_nil]
        refine ⟨rfl, ?_⟩
        unfold fgetsFrom
        rw [hrun]
        cases socket.useTls <;> rfl
      · obtain ⟨copied, lf, hcopy, hne, hle, hlf, hfree, hadvance, hleft⟩ := copied_run hstart hsize hbound
        have hall : buffer ++ socket.pending = (buffer ++ copied) ++ (start.advance copied.length).pending := by
          rw [← hpending, hleft, List.append_assoc]
        have hlen : (buffer ++ copied).length ≤ bound := by
          rw [List.length_append]
          exact hle
        have htotal : (buffer ++ copied).length ≤ (buffer ++ socket.pending).length := by
          rw [hall]
          exact (List.sublist_append_left _ _).length_le
        have hheld : buffer.length + start.recvbuf.size ≤ (buffer ++ socket.pending).length := by
          rw [← hpending, TcpSocket.pending, ← LineBuffer.Sound.held_length hstart]
          simp only [List.length_append]
          omega
        have hcount : (max : Int) - 1 < short (buffer ++ copied).length ↔ bound ≤ (buffer ++ copied).length := by
          have h := hstops _ hlen htotal
          omega
        have hround : fgetsFrom max (fuel + 1) buffer (short buffer.length) socket =
            if (max : Int) - 1 < short (buffer ++ copied).length then
              (⟨buffer ++ copied, some (short (buffer ++ copied).length)⟩, start.advance copied.length)
            else if !lf then
              fgetsFrom max fuel (buffer ++ copied) (short (buffer ++ copied).length)
                (start.advance copied.length).compact
            else (⟨buffer ++ copied, some (short (buffer ++ copied).length)⟩, start.advance copied.length) := by
          rw [fgetsFrom, hrun]
          dsimp only
          rw [copy_eq hstops (Nat.le_of_lt hbound) hheld, hcopy, ← List.length_append]
        rw [hround, hall]
        by_cases hend : lf = true ∨ bound ≤ (buffer ++ copied).length
        · obtain ⟨hpiece, hwhole⟩ :=
            piece_of_copied (start.advance copied.length).pending hbuffer hlen hlf hfree hend
          refine ⟨start.advance copied.length, hadvance, ?_⟩
          rw [hpiece, hwhole]
          refine ⟨rfl, ?_⟩
          rcases hend with rfl | hfull
          · simp
          · rw [if_pos (hcount.mpr hfull)]
            rfl
        · rw [not_or, Bool.not_eq_true] at hend
          obtain ⟨rfl, hfull⟩ := hend
          obtain ⟨hcompact, hkept⟩ := compact_run hadvance
          have hless : (start.advance copied.length).compact.pending.length < fuel := by
            have hcopied : 0 < copied.length := List.length_pos_of_ne_nil hne
            have hlength := congrArg List.length hleft
            rw [List.length_append, hpending] at hlength
            rw [hkept]
            omega
          have hstops' : Stops max bound
              (buffer ++ copied ++ (start.advance copied.length).compact.pending).length := by
            rw [hkept, ← hall]
            exact hstops
          obtain ⟨socket', hsound', hend⟩ :=
            ih hcompact (hbuffer.append (hfree rfl)) (Nat.lt_of_not_le hfull) hstops' hless
          refine ⟨socket', hsound', ?_⟩
          rw [if_neg (fun h => hfull (hcount.mp h)), Bool.not_false, if_pos rfl]
          rw [hkept] at hend
          rw [show socket.useTls = (start.advance copied.length).compact.useTls from htls.symm]
          exact hend

theorem tcpFgets_run (hmax : 0 < max) (hsound : socket.Sound) (hbound : 0 < bound)
    (hstops : Stops max bound socket.pending.length) :
    ∃ socket', socket'.Sound ∧ tcpFgets max socket =
      (⟨piece isNl bound socket.pending,
        if !whole isNl bound (piece isNl bound socket.pending) && socket.useTls then none
        else some (short (piece isNl bound socket.pending).length)⟩, socket') := by
  obtain ⟨socket', hsound', -, hrun⟩ :=
    fgetsFrom_run hsound free_nil hmax hbound hstops (Nat.lt_succ_self socket.pending.length)
  exact ⟨socket', hsound', hrun⟩

/-- The first piece of the bytes that are left, without a bound. -/
theorem shortLine_iff (h : 32768 ≤ bound) : ShortLine socket ↔ (piece isNl bound socket.pending).length ≤ 32767 := by
  rw [ShortLine, piece_take h, List.length_take]
  omega

/-- A line that is too long for a `short` is not counted, unless it fits and `recv` fails behind it. -/
theorem counted_long (hlong : 32767 < (piece isNl bound socket.pending).length)
    (hbound : socket.pending.length < bound) :
    Line.Counted max ⟨piece isNl bound socket.pending,
        if !whole isNl bound (piece isNl bound socket.pending) && socket.useTls then none
        else some (short (piece isNl bound socket.pending).length)⟩ ↔ Fails max socket := by
  have hle := short_le (piece isNl bound socket.pending).length
  cases hwhole : whole isNl bound (piece isNl bound socket.pending) with
  | true =>
      have hnot : ¬ Free isNl socket.pending := by
        intro hfree
        rw [(piece_of_rest hfree hbound).1, (piece_of_rest hfree hbound).2] at hwhole
        cases hwhole
      refine iff_of_false ?_ fun h => hnot h.2.1
      rintro ⟨-, hcount⟩
      have hrc := hcount _ rfl
      dsimp only at hrc
      omega
  | false =>
      obtain ⟨hpiece, hfree⟩ := piece_eq_self hwhole
      rw [hpiece] at hle hlong ⊢
      cases htls : socket.useTls with
      | true =>
          constructor
          · intro h
            exact ⟨htls, hfree, h.1⟩
          · intro h
            refine ⟨h.2.2, ?_⟩
            intro n hn
            cases hn
      | false =>
          refine iff_of_false ?_ fun h => Bool.false_ne_true (htls.symm.trans h.1)
          rintro ⟨-, hcount⟩
          have hrc := hcount _ rfl
          dsimp only at hrc
          omega

theorem counted_short {l : List Byte} (hmax : l.length ≤ max) (hshort : l.length ≤ 32767) (b : Bool) :
    Line.Counted max ⟨l, if b then none else some (short l.length)⟩ := by
  refine ⟨hmax, ?_⟩
  intro n hn
  cases b with
  | true => cases hn
  | false =>
      exact (Option.some.inj hn).symm.trans (short_of_le hshort)

theorem tcpFgets_counted (hmax : 0 < max) (hsound : socket.Sound) :
    (tcpFgets max socket).2.Sound ∧
      ((tcpFgets max socket).1.Counted max ↔ max ≤ 32767 ∨ ShortLine socket ∨ Fails max socket) := by
  by_cases hsmall : max ≤ 32767
  · obtain ⟨socket', hsound', hrun⟩ := tcpFgets_run hmax hsound hmax (stops_small hsmall)
    have hle := piece_length_le (S := isNl) max socket.pending
    rw [hrun]
    exact ⟨hsound', iff_of_true (counted_short hle (hle.trans hsmall) _) (Or.inl hsmall)⟩
  · obtain ⟨bound, hbound, hshort⟩ : ∃ bound, socket.pending.length < bound ∧ 32768 ≤ bound :=
      ⟨socket.pending.length + 32768, by omega, by omega⟩
    obtain ⟨socket', hsound', hrun⟩ :=
      tcpFgets_run hmax hsound (by omega) (stops_large (Nat.lt_of_not_le hsmall) hbound)
    rw [hrun, or_iff_right hsmall, shortLine_iff hshort]
    refine ⟨hsound', ?_⟩
    by_cases hline : (piece isNl bound socket.pending).length ≤ 32767
    · exact iff_of_true (counted_short (by omega) hline _) (Or.inl hline)
    · rw [or_iff_right hline]
      exact counted_long (Nat.lt_of_not_le hline) hbound

end

/-- Whatever `recv` returns, the buffer of the socket is in order. The line is counted just if `max` is a `short`, the
first line of what is left has at most 32767 bytes, or `recv` fails behind a part of a line that fits. -/
theorem tcpFgets_iff {max : Nat} {socket : TcpSocket} (hmax : 0 < max) (hsound : socket.Sound) :
    (tcpFgets max socket).2.Sound ∧
      ((tcpFgets max socket).1.Counted max ↔ max ≤ 32767 ∨ ShortLine socket ∨ Fails max socket) :=
  tcpFgets_counted hmax hsound

/-- A line of a mail server, in two packets. -/
theorem tcpFgets_mail : (tcpFgets 1023 (connected [bytes "+O", bytes "K\r\n"])).1.Counted 1023 :=
  (tcpFgets_iff (by decide) (connected_sound _)).2.mpr (Or.inl (by decide))

/-- A line of 32768 bytes or more is not short. -/
theorem not_shortLine {p : List Byte} (hp : Free isNl p) (hlen : p.length = 32767) :
    ¬ ShortLine (connected [p ++ [ch '\n']]) := by
  have hpiece : piece isNl 32768 (p ++ [ch '\n']) = p ++ [ch '\n'] := piece_of_ended hp rfl (by omega) []
  rw [ShortLine, connected_pending, List.flatten_singleton, hpiece, List.length_append, hlen]
  decide

/-- A script reads a line of 32768 bytes. -/
theorem not_counted_long : ¬ ∀ (max : Nat) (socket : TcpSocket), max = 1023 ∨ max = maxTcpReadSize - 1 → socket.Sound →
    (tcpFgets max socket).1.Counted max := by
  intro h
  obtain ⟨p, hp, hlen⟩ : ∃ p : List Byte, Free isNl p ∧ p.length = 32767 :=
    ⟨List.replicate 32767 (ch 'a'), fun c hc => by rw [List.eq_of_mem_replicate hc]; rfl, List.length_replicate⟩
  have hsound := connected_sound [p ++ [ch '\n']]
  have hcounted := (tcpFgets_counted (by decide) hsound).2.mp (h _ _ (Or.inr rfl) hsound)
  obtain hmax | hshort | hfails := hcounted
  · exact absurd hmax (by decide)
  · exact not_shortLine hp hlen hshort
  · exact absurd hfails.1 Bool.false_ne_true

end NullG.Libs.LongLines
