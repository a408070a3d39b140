/-
Lines do not depend on the packets.

`tcpFgets_run` says what `tcp_fgets` returns: the first piece of the bytes that are left, if they
have a whole one. The state of the buffer that it is found in, and the packets that the bytes come
in, do not matter.
-/

import NullG.Net.Tcp
import Mathlib.Logic.Relation

namespace NullG.Net

open NullG.Nsp NullG.Lib

/-- The buffer and what is valid of it are where they may be. -/
structure TcpSocket.Sound (socket : TcpSocket) : Prop where
  length : socket.recvbuf.length = recvbufLen
  bound : socket.recvbufoffset + socket.recvbufsize ≤ recvbufLen - 2

/-- The first piece of the bytes that are left. -/
abbrev firstPiece (max : Nat) (l : List Octet) : List Octet := piece Octet.isLf max l

/-! ### The buffer -/

section

variable {socket : TcpSocket}

theorem clearBuf_length : clearBuf.length = recvbufLen := List.length_replicate

theorem buffered_length (h : socket.Sound) : socket.buffered.length = socket.recvbufsize := by
  unfold TcpSocket.buffered
  have hlen := h.length
  have hbound := h.bound
  rw [List.length_take, List.length_drop, hlen]
  unfold recvbufLen at *
  omega

theorem buffered_of_empty (h : socket.recvbufsize = 0) : socket.buffered = [] := by
  unfold TcpSocket.buffered
  rw [h]
  rfl

/-- A read of a packet takes some of it. -/
theorem readPacket_run {len : Nat} (hlen : 0 < len) {packet : List Byte} (hne : packet ≠ []) (rest : List (List Byte)) :
    ∃ data rest', readPacket len packet rest = (data, rest') ∧ data ≠ [] ∧ data.length ≤ len ∧
      (packet :: rest).flatten = data ++ rest'.flatten ∧
      ((packet :: rest).takeWhile (!·.isEmpty)).flatten = data ++ (rest'.takeWhile (!·.isEmpty)).flatten := by
  have hkeep : ∀ {p : List Byte} (l : List (List Byte)), p ≠ [] →
      ((p :: l).takeWhile (!·.isEmpty)).flatten = p ++ (l.takeWhile (!·.isEmpty)).flatten := by
    intro p l hp
    obtain ⟨c, p, rfl⟩ := List.exists_cons_of_ne_nil hp
    rfl
  refine ⟨_, _, rfl, fun h => ?_, ?_, ?_, ?_⟩
  · rcases List.take_eq_nil_iff.mp h with h | h
    · exact absurd h (Nat.ne_of_gt hlen)
    · exact hne h
  · rw [List.length_take]
    exact Nat.min_le_left _ _
  · by_cases hlong : packet.length ≤ len
    · rw [if_pos hlong, List.take_of_length_le hlong, List.flatten_cons]
    · rw [if_neg hlong, List.flatten_cons, List.flatten_cons, ← List.append_assoc, List.take_append_drop]
  · by_cases hlong : packet.length ≤ len
    · rw [if_pos hlong, List.take_of_length_le hlong, hkeep rest hne]
    · have hdrop : packet.drop len ≠ [] := fun h => hlong (List.drop_eq_nil_iff.mp h)
      rw [if_neg hlong, hkeep rest hne, hkeep rest hdrop, ← List.append_assoc, List.take_append_drop]

/-- The two sockets have the same buffer, and they read from the same layer. -/
structure SameBuffer (s t : TcpSocket) : Prop where
  ssl : t.ssl = s.ssl
  usingTls : t.usingTls = s.usingTls
  recvbufsize : t.recvbufsize = s.recvbufsize
  recvbufoffset : t.recvbufoffset = s.recvbufoffset
  recvbuf : t.recvbuf = s.recvbuf

theorem flatten_dropWhile_isEmpty (l : List (List Byte)) : (l.dropWhile List.isEmpty).flatten = l.flatten := by
  induction l with
  | nil => rfl
  | cons p l ih =>
      cases p with
      | nil => exact ih
      | cons c p => rfl

/-- What `tcp_recv` reads is what comes next. -/
theorem tcpRecv_run (socket : TcpSocket) {len : Nat} (hlen : 0 < len) :
    (socket.incoming = [] ∧ ∃ socket', tcpRecv socket len = (none, socket') ∧ socket'.incoming = [] ∧
      SameBuffer socket socket') ∨
    ∃ data socket', tcpRecv socket len = (some data, socket') ∧ data ≠ [] ∧ data.length ≤ len ∧
      socket.incoming = data ++ socket'.incoming ∧ SameBuffer socket socket' := by
  have hmin : 0 < min len 16384 := Nat.lt_min.mpr ⟨hlen, by decide⟩
  have hle : min len 16384 ≤ len := Nat.min_le_left _ _
  unfold tcpRecv
  by_cases hssl : socket.ssl = true
  · have hincoming : ∀ s : TcpSocket, s.ssl = socket.ssl →
        s.incoming = (s.sslReads.takeWhile (!·.isEmpty)).flatten.map (⟨·, true⟩) := by
      intro s hs
      exact if_pos (hs.trans hssl)
    rw [if_pos hssl, hincoming socket rfl]
    cases hreads : socket.sslReads with
    | nil => exact .inl ⟨rfl, socket, rfl, by rw [hincoming socket rfl, hreads]; rfl, ⟨rfl, rfl, rfl, rfl, rfl⟩⟩
    | cons packet rest =>
        by_cases hne : packet = []
        · rw [hne] at hreads ⊢
          exact .inl ⟨rfl, socket, rfl, by rw [hincoming socket rfl, hreads]; rfl, ⟨rfl, rfl, rfl, rfl, rfl⟩⟩
        · obtain ⟨data, rest', hread, hdata, hlen, -, hsplit⟩ := readPacket_run hmin hne rest
          refine .inr ⟨data.map (⟨·, true⟩), { socket with sslReads := rest' }, ?_, ?_, ?_, ?_, ⟨rfl, rfl, rfl, rfl, rfl⟩⟩
          · obtain ⟨c, packet, rfl⟩ := List.exists_cons_of_ne_nil hne
            dsimp only
            rw [hread]
          · exact fun h => hdata (List.map_eq_nil_iff.mp h)
          · rw [List.length_map]
            exact Nat.le_trans hlen hle
          · rw [hincoming { socket with sslReads := rest' } rfl, hsplit, List.map_append]
  · have hincoming : ∀ s : TcpSocket, s.ssl = socket.ssl → s.incoming = s.recvs.flatten.map (⟨·, false⟩) := by
      intro s hs
      exact if_neg (by rw [hs]; exact hssl)
    rw [if_neg hssl, hincoming socket rfl, ← flatten_dropWhile_isEmpty]
    cases hrecvs : socket.recvs.dropWhile List.isEmpty with
    | nil => exact .inl ⟨rfl, _, rfl, hincoming { socket with recvs := [] } rfl, ⟨rfl, rfl, rfl, rfl, rfl⟩⟩
    | cons packet rest =>
        have hne : packet ≠ [] := by
          rintro rfl
          have h := List.head_dropWhile_not List.isEmpty (l := socket.recvs)
            (by rw [hrecvs]; exact List.cons_ne_nil _ _)
          simp only [hrecvs] at h
          cases h
        obtain ⟨data, rest', hread, hdata, hlen, hsplit, -⟩ := readPacket_run hmin hne rest
        refine .inr ⟨data.map (⟨·, false⟩), { socket with recvs := rest' }, ?_, ?_, ?_, ?_, ⟨rfl, rfl, rfl, rfl, rfl⟩⟩
        · dsimp only
          rw [hread]
        · exact fun h => hdata (List.map_eq_nil_iff.mp h)
        · rw [List.length_map]
          exact Nat.le_trans hlen hle
        · rw [hincoming { socket with recvs := rest' } rfl, hsplit, List.map_append]

/-- What was written is read back. -/
theorem store_read {buf data : List Octet} {i : Nat} (h : i + data.length ≤ buf.length) :
    (store buf i data).length = buf.length ∧ ((store buf i data).drop i).take data.length = data := by
  have htake : (buf.take i).length = i := by
    rw [List.length_take]
    omega
  unfold store
  constructor
  · rw [List.length_append, List.length_append, htake, List.length_drop]
    omega
  · rw [List.append_assoc, List.drop_append_of_le_length (Nat.le_of_eq htake.symm),
      List.drop_of_length_le (Nat.le_of_eq htake), List.nil_append, List.take_left']
    rfl

/-- An empty buffer is filled with what comes next. -/
theorem refill_run (h : socket.Sound) (hempty : socket.recvbufsize = 0) :
    (socket.incoming = [] ∧ ∃ socket', refill socket = (false, socket') ∧ socket'.Sound ∧
      socket'.pending = []) ∨
    ∃ socket', refill socket = (true, socket') ∧ socket'.Sound ∧ 0 < socket'.recvbufsize ∧
      socket'.pending = socket.pending := by
  -- the buffer is cleared where there is no room behind the offset
  obtain ⟨start, hstart, hsound, hroom, hinc, hsize⟩ : ∃ start : TcpSocket,
      (if recvbufLen - socket.recvbufoffset - socket.recvbufsize - 2 < 1 then
        { socket with recvbuf := clearBuf, recvbufoffset := 0, recvbufsize := 0 } else socket) = start ∧
      start.Sound ∧ 0 < recvbufLen - start.recvbufoffset - start.recvbufsize - 2 ∧
      start.incoming = socket.incoming ∧ start.recvbufsize = 0 := by
    by_cases hx : recvbufLen - socket.recvbufoffset - socket.recvbufsize - 2 < 1
    · rw [if_pos hx]
      exact ⟨_, rfl, ⟨clearBuf_length, Nat.zero_le _⟩, Nat.zero_lt_succ 4093, rfl, rfl⟩
    · rw [if_neg hx]
      exact ⟨socket, rfl, h, Nat.not_lt.mp hx, rfl, hempty⟩
  have hpending : socket.pending = socket.incoming := by
    unfold TcpSocket.pending
    rw [buffered_of_empty hempty]
    rfl
  rcases tcpRecv_run start hroom with ⟨hnone, socket', hrun, hdone, heq⟩ | ⟨data, socket', hrun, hne, hle, hdata, heq⟩
  · refine .inl ⟨hinc.symm.trans hnone, socket', ?_, ?_, ?_⟩
    · unfold refill
      dsimp only
      rw [hstart, hrun]
    · refine ⟨?_, ?_⟩
      · rw [heq.recvbuf]
        exact hsound.length
      · rw [heq.recvbufoffset, heq.recvbufsize]
        exact hsound.bound
    · unfold TcpSocket.pending
      rw [hdone, List.append_nil]
      exact buffered_of_empty (heq.recvbufsize.trans hsize)
  · have hbuf : socket'.recvbuf = start.recvbuf := heq.recvbuf
    have hoff : socket'.recvbufoffset = start.recvbufoffset := heq.recvbufoffset
    have hsize' : socket'.recvbufsize = 0 := heq.recvbufsize.trans hsize
    have hlength := hsound.length
    have hbound := hsound.bound
    rw [hsize] at hle hbound hroom
    have hfit : start.recvbufoffset + data.length ≤ recvbufLen - 2 := by
      unfold recvbufLen at *
      omega
    obtain ⟨hstored, hread⟩ := @store_read start.recvbuf data start.recvbufoffset
      (by rw [hlength]; unfold recvbufLen at *; omega)
    refine .inr ⟨{ socket' with
        recvbuf := store socket'.recvbuf (socket'.recvbufoffset + socket'.recvbufsize) data
        recvbufsize := socket'.recvbufsize + data.length }, ?_, ?_, ?_, ?_⟩
    · unfold refill
      dsimp only
      rw [hstart, hrun]
    · constructor
      · show (store socket'.recvbuf _ data).length = _
        rw [hbuf, hoff, hsize', Nat.add_zero, hstored, hlength]
      · show socket'.recvbufoffset + (socket'.recvbufsize + data.length) ≤ _
        rw [hoff, hsize', Nat.zero_add]
        exact hfit
    · show 0 < socket'.recvbufsize + data.length
      rw [hsize', Nat.zero_add]
      exact List.length_pos_of_ne_nil hne
    · rw [hpending, ← hinc, hdata]
      show ((store socket'.recvbuf _ data).drop socket'.recvbufoffset).take (socket'.recvbufsize + data.length) ++
        socket'.incoming = _
      rw [hbuf, hoff, hsize', Nat.add_zero, Nat.zero_add, hread]

/-! ### The loops -/

/-- The inner loop copies some of the first piece; it is stopped behind a newline only. -/
theorem copyLoop_run {max size n : Nat} {obuffer : List Octet} (hsize : size ≤ obuffer.length) :
    ∃ copied lf rest, copyLoop max obuffer size n = (copied, lf) ∧ obuffer.take size = copied ++ rest ∧
      copied.length ≤ max - n ∧ (0 < size → n < max → copied ≠ []) ∧
      (lf = true → ∃ p c, copied = p ++ [c] ∧ Free Octet.isLf p ∧ c.isLf = true) ∧
      (lf = false → Free Octet.isLf copied) := by
  induction obuffer generalizing size n with
  | nil =>
      obtain rfl : size = 0 := Nat.le_zero.mp hsize
      exact ⟨[], false, [], rfl, rfl, Nat.zero_le _, fun h => absurd h (Nat.lt_irrefl 0),
        fun h => Bool.noConfusion h, fun _ => free_nil⟩
  | cons c obuffer ih =>
      cases size with
      | zero =>
          exact ⟨[], false, [], rfl, rfl, Nat.zero_le _, fun h => absurd h (Nat.lt_irrefl 0),
            fun h => Bool.noConfusion h, fun _ => free_nil⟩
      | succ size =>
          by_cases hn : n < max
          · cases hstop : c.isLf || (obuffer.head?.map Octet.byte == some 0) with
            | true =>
                refine ⟨[c], c.isLf, obuffer.take size, ?_, rfl, Nat.succ_le_of_lt (Nat.sub_pos_of_lt hn),
                  fun _ _ => List.cons_ne_nil c [], fun hlf => ⟨[], c, rfl, free_nil, hlf⟩,
                  fun hlf => free_cons hlf free_nil⟩
                unfold copyLoop
                rw [if_pos hn, if_pos hstop]
            | false =>
                obtain ⟨copied, lf, rest, hrun, hsplit, hlen, -, hlf, hfree⟩ :=
                  ih (n := n + 1) (Nat.le_of_succ_le_succ hsize)
                have hc : c.isLf = false := (Bool.or_eq_false_iff.mp hstop).1
                refine ⟨c :: copied, lf, rest, ?_, congrArg (c :: ·) hsplit, ?_, fun _ _ => List.cons_ne_nil _ _, ?_,
                  fun h => free_cons hc (hfree h)⟩
                · unfold copyLoop
                  rw [if_pos hn, if_neg (by rw [hstop]; exact Bool.false_ne_true), hrun]
                · rw [List.length_cons]
                  omega
                · intro h
                  obtain ⟨p, d, rfl, hp, hd⟩ := hlf h
                  exact ⟨c :: p, d, rfl, free_cons hc hp, hd⟩
          · refine ⟨[], false, (c :: obuffer).take (size + 1), ?_, rfl, Nat.zero_le _, fun _ h => absurd h hn,
              fun h => Bool.noConfusion h, fun _ => free_nil⟩
            unfold copyLoop
            rw [if_neg hn]

/-- The socket behind the bytes that were copied. -/
abbrev TcpSocket.advance (socket : TcpSocket) (n : Nat) : TcpSocket :=
  { socket with recvbufoffset := socket.recvbufoffset + n, recvbufsize := socket.recvbufsize - n }

theorem advance_run {copied rest : List Octet} (h : socket.Sound) (hsplit : socket.buffered = copied ++ rest) :
    (socket.advance copied.length).Sound ∧
      socket.pending = copied ++ (socket.advance copied.length).pending := by
  have hlen := buffered_length h
  rw [hsplit, List.length_append] at hlen
  refine ⟨⟨h.length, ?_⟩, ?_⟩
  · show socket.recvbufoffset + copied.length + (socket.recvbufsize - copied.length) ≤ recvbufLen - 2
    have hbound := h.bound
    omega
  · have hrest : (socket.advance copied.length).buffered = rest := by
      show (socket.recvbuf.drop (socket.recvbufoffset + copied.length)).take (socket.recvbufsize - copied.length) = rest
      rw [← List.drop_drop, ← List.drop_take]
      show socket.buffered.drop copied.length = rest
      rw [hsplit, List.drop_left]
    unfold TcpSocket.pending
    rw [hrest, hsplit, List.append_assoc]
    rfl

theorem compact_run (h : socket.Sound) : (compact socket).Sound ∧ (compact socket).pending = socket.pending := by
  have hlen := buffered_length h
  have hbound := h.bound
  unfold compact
  by_cases hsize : socket.recvbufsize > 0
  · rw [if_pos hsize]
    constructor
    · constructor
      · show (socket.buffered ++ clearBuf.drop socket.recvbufsize).length = recvbufLen
        rw [List.length_append, hlen, List.length_drop, clearBuf_length]
        omega
      · show 0 + socket.recvbufsize ≤ recvbufLen - 2
        omega
    · show ((socket.buffered ++ clearBuf.drop socket.recvbufsize).drop 0).take socket.recvbufsize ++
        socket.incoming = socket.pending
      rw [List.drop_zero, ← hlen, List.take_left]
      rfl
  · rw [if_neg hsize]
    refine ⟨⟨clearBuf_length, Nat.zero_le _⟩, ?_⟩
    show (clearBuf.drop 0).take 0 ++ socket.incoming = socket.buffered ++ socket.incoming
    rw [buffered_of_empty (Nat.eq_zero_of_not_pos hsize)]
    rfl

/-- What the rounds of `tcp_fgets` return. -/
theorem fgetsFrom_run {max fuel : Nat} {buffer : List Octet} (hsound : socket.Sound)
    (hbuffer : Free Octet.isLf buffer) (hmax : buffer.length < max) (hfuel : socket.pending.length < fuel) :
    ∃ socket', socket'.Sound ∧
      if whole Octet.isLf max (firstPiece max (buffer ++ socket.pending)) then
        fgetsFrom max fuel buffer socket = (some (firstPiece max (buffer ++ socket.pending)), socket') ∧
        buffer ++ socket.pending = firstPiece max (buffer ++ socket.pending) ++ socket'.pending
      else fgetsFrom max fuel buffer socket = (none, socket') ∧ socket'.pending = [] := by
  induction fuel generalizing buffer socket with
  | zero => exact absurd hfuel (Nat.not_lt_zero _)
  | succ fuel ih =>
      -- a round starts with bytes in the buffer, or it is the last one
      have hfill : (socket.pending = [] ∧ ∃ socket', (if socket.recvbufsize = 0 then refill socket
            else (true, socket)) = (false, socket') ∧ socket'.Sound ∧ socket'.pending = []) ∨
          ∃ start, (if socket.recvbufsize = 0 then refill socket else (true, socket)) = (true, start) ∧
            start.Sound ∧ 0 < start.recvbufsize ∧ start.pending = socket.pending := by
        by_cases hempty : socket.recvbufsize = 0
        · rw [if_pos hempty]
          rcases refill_run hsound hempty with ⟨hnone, hend⟩ | hgo
          · refine .inl ⟨?_, hend⟩
            unfold TcpSocket.pending
            rw [hnone, buffered_of_empty hempty]
            rfl
          · exact .inr hgo
        · rw [if_neg hempty]
          exact .inr ⟨socket, rfl, hsound, Nat.pos_of_ne_zero hempty, rfl⟩
      rcases hfill with ⟨hnone, socket', hrun, hsound', hend⟩ | ⟨start, hrun, hstart, hsize, hpending⟩
      · refine ⟨socket', hsound', ?_⟩
        have hpiece : firstPiece max (buffer ++ socket.pending) = buffer := by
          rw [hnone, List.append_nil]
          exact piece_of_free hbuffer (Nat.le_of_lt hmax)
        have hpart : whole Octet.isLf max buffer = false := by
          unfold whole
          rw [hbuffer.not_ended, Bool.or_false]
          exact beq_eq_false_iff_ne.mpr (Nat.ne_of_lt hmax)
        rw [hpiece, hpart, if_neg Bool.false_ne_true]
        refine ⟨?_, hend⟩
        unfold fgetsFrom
        rw [hrun]
      · have hlong : start.recvbufsize ≤ (start.recvbuf.drop start.recvbufoffset).length := by
          rw [List.length_drop, hstart.length]
          have hbound := hstart.bound
          unfold recvbufLen at *
          omega
        obtain ⟨copied, lf, rest, hcopy, hsplit, hle, hne, hlf, hfree⟩ :=
          @copyLoop_run max _ buffer.length _ hlong
        obtain ⟨hadvance, hleft⟩ := advance_run hstart hsplit
        have hall : buffer ++ socket.pending = (buffer ++ copied) ++ (start.advance copied.length).pending := by
          rw [← hpending, hleft, List.append_assoc]
        have hlen : (buffer ++ copied).length ≤ max := by
          rw [List.length_append]
          omega
        have hround : fgetsFrom max (fuel + 1) buffer socket =
            if max ≤ (buffer ++ copied).length then (some (buffer ++ copied), start.advance copied.length)
            else if !lf then fgetsFrom max fuel (buffer ++ copied) (compact (start.advance copied.length))
            else (some (buffer ++ copied), start.advance copied.length) := by
          rw [fgetsFrom, hrun]
          dsimp only
          rw [hcopy]
        rw [hround, hall]
        cases lf with
        | true =>
            obtain ⟨p, c, rfl, hp, hc⟩ := hlf rfl
            have hpiece : firstPiece max ((buffer ++ (p ++ [c])) ++ (start.advance (p ++ [c]).length).pending) =
                buffer ++ (p ++ [c]) := by
              rw [← List.append_assoc, ← List.append_cons]
              refine piece_of_ended (hbuffer.append hp) hc ?_ _
              rw [← List.append_assoc, List.length_append, List.length_singleton] at hlen
              omega
            have hwhole : whole Octet.isLf max (buffer ++ (p ++ [c])) = true := by
              unfold whole
              rw [← List.append_assoc, ended_concat, hc, Bool.or_true]
            refine ⟨_, hadvance, ?_⟩
            rw [hpiece, if_pos hwhole]
            refine ⟨?_, rfl⟩
            split <;> rfl
        | false =>
            have hfree' : Free Octet.isLf (buffer ++ copied) := hbuffer.append (hfree rfl)
            by_cases hfull : max ≤ (buffer ++ copied).length
            · have hlen' : (buffer ++ copied).length = max := Nat.le_antisymm hlen hfull
              have hwhole : whole Octet.isLf max (buffer ++ copied) = true := by
                unfold whole
                rw [beq_iff_eq.mpr hlen', Bool.true_or]
              refine ⟨_, hadvance, ?_⟩
              rw [if_pos hfull, firstPiece, piece_of_length hfree' hlen', if_pos hwhole]
              exact ⟨rfl, rfl⟩
            · obtain ⟨hcompact, hkept⟩ := compact_run hadvance
              have hless : (compact (start.advance copied.length)).pending.length < fuel := by
                have hpos : 0 < copied.length := List.length_pos_of_ne_nil (hne hsize hmax)
                have hcount := congrArg List.length hleft
                rw [List.length_append, hpending] at hcount
                rw [hkept]
                omega
              obtain ⟨socket', hsound', hend⟩ := ih hcompact hfree' (Nat.lt_of_not_le hfull) hless
              refine ⟨socket', hsound', ?_⟩
              rw [if_neg hfull, Bool.not_false, if_pos rfl]
              rw [hkept] at hend
              exact hend

/-- `tcp_fgets` returns the first piece of the bytes that are left, if they have a whole one. -/
theorem tcpFgets_run {max : Nat} (hmax : 0 < max) (hsound : socket.Sound) :
    ∃ socket', socket'.Sound ∧
      if whole Octet.isLf max (firstPiece max socket.pending) then
        tcpFgets max socket = (some (firstPiece max socket.pending), socket') ∧
        socket.pending = firstPiece max socket.pending ++ socket'.pending
      else tcpFgets max socket = (none, socket') ∧ socket'.pending = [] :=
  fgetsFrom_run hsound free_nil hmax (Nat.lt_succ_self _)

end

/-! ### Calls -/

/-- A connection on which the packets arrive. -/
def connected (recvs : List (List Byte)) : TcpSocket := { recvs := recvs }

/-- Calls of `tcp_fgets`, at most `n` of them and up to the first that returns -1: the lines, and
the socket behind the calls. -/
def fgetsCalls (max : Nat) : Nat → TcpSocket → List (List Octet) × TcpSocket
  | 0, socket => ([], socket)
  | n + 1, socket =>
      match tcpFgets max socket with
      | (none, socket) => ([], socket)
      | (some line, socket) =>
          let (lines, socket) := fgetsCalls max n socket
          (line :: lines, socket)

/-- The lines as the caller sees them. -/
def linesRead (max n : Nat) (socket : TcpSocket) : List (List Byte) :=
  (fgetsCalls max n socket).1.map (·.map Octet.byte)

/-- The line ends at its first newline, or it has `max` bytes and no newline before its end. -/
def Framed (max : Nat) (line : List Byte) : Prop :=
  (∃ p, line = p ++ [ch '\n'] ∧ ch '\n' ∉ p ∧ line.length ≤ max) ∨ (line.length = max ∧ ch '\n' ∉ line)

/-- One assignment to the buffer of `tcp_fgets`. -/
inductive Moves : TcpSocket → TcpSocket → Prop where
  | refill {socket : TcpSocket} : socket.recvbufsize = 0 → Moves socket (refill socket).2
  | copy {socket : TcpSocket} : 0 < socket.recvbufsize → Moves socket (socket.advance 1)
  | compact {socket : TcpSocket} : Moves socket (compact socket)

section

variable {socket socket' : TcpSocket} {max n : Nat}

theorem Moves.sound (h : Moves socket socket') (hsound : socket.Sound) : socket'.Sound := by
  cases h with
  | refill hempty =>
      rcases refill_run hsound hempty with ⟨-, t, hrun, ht, -⟩ | ⟨t, hrun, ht, -⟩
      · rw [hrun]
        exact ht
      · rw [hrun]
        exact ht
  | copy hsize =>
      refine ⟨hsound.length, ?_⟩
      have hbound := hsound.bound
      show socket.recvbufoffset + 1 + (socket.recvbufsize - 1) ≤ recvbufLen - 2
      omega
  | compact => exact (compact_run hsound).1

theorem moves_sound (h : Relation.ReflTransGen Moves socket socket') (hsound : socket.Sound) : socket'.Sound := by
  induction h with
  | refl => exact hsound
  | tail _ hstep ih => exact hstep.sound ih

theorem copy_moves {k : Nat} (hk : k ≤ socket.recvbufsize) :
    Relation.ReflTransGen Moves socket (socket.advance k) := by
  induction k with
  | zero => exact .refl
  | succ k ih =>
      refine (ih (Nat.le_of_succ_le hk)).tail ?_
      exact @Moves.copy (socket.advance k) (Nat.sub_pos_of_lt hk)

/-- `tcp_fgets` makes no other assignments. -/
theorem fgetsFrom_moves {fuel : Nat} (hsound : socket.Sound) (buffer : List Octet) :
    Relation.ReflTransGen Moves socket (fgetsFrom max fuel buffer socket).2 := by
  induction fuel generalizing buffer socket with
  | zero => exact .refl
  | succ fuel ih =>
      have hfill : Relation.ReflTransGen Moves socket
          (if socket.recvbufsize = 0 then refill socket else (true, socket)).2 := by
        by_cases hempty : socket.recvbufsize = 0
        · rw [if_pos hempty]
          exact .single (.refill hempty)
        · rw [if_neg hempty]
      unfold fgetsFrom
      generalize (if socket.recvbufsize = 0 then refill socket else (true, socket)) = start at hfill
      obtain ⟨more, start⟩ := start
      have hstart : start.Sound := moves_sound hfill hsound
      cases more with
      | false => exact hfill
      | true =>
          have hlong : start.recvbufsize ≤ (start.recvbuf.drop start.recvbufoffset).length := by
            rw [List.length_drop, hstart.length]
            have hbound := hstart.bound
            unfold recvbufLen at *
            omega
          obtain ⟨copied, lf, rest, hcopy, hsplit, -⟩ := @copyLoop_run max _ buffer.length _ hlong
          have hle : copied.length ≤ start.recvbufsize := by
            have hlen := congrArg List.length hsplit
            rw [List.length_append, List.length_take] at hlen
            omega
          have hcopied := hfill.trans (copy_moves hle)
          dsimp only
          rw [hcopy]
          dsimp only
          split
          · exact hcopied
          · split
            · exact (hcopied.tail .compact).trans (ih (moves_sound (hcopied.tail .compact) hsound) _)
            · exact hcopied

theorem tcpFgets_moves (hsound : socket.Sound) : Relation.ReflTransGen Moves socket (tcpFgets max socket).2 :=
  fgetsFrom_moves hsound []

/-- The calls return the whole pieces of what is left, in their order. -/
theorem fgetsCalls_run (hmax : 0 < max) (hsound : socket.Sound) :
    (fgetsCalls max n socket).1 = ((pieces Octet.isLf max socket.pending).filter (whole Octet.isLf max)).take n ∧
      ((fgetsCalls max n socket).2.Sound ∧
        Relation.ReflTransGen Moves socket (fgetsCalls max n socket).2) ∧
      ∃ lost, socket.pending = (fgetsCalls max n socket).1.flatten ++ lost ++ (fgetsCalls max n socket).2.pending ∧
        (lost = [] ∨ (fgetsCalls max n socket).1.length < n) := by
  induction n generalizing socket with
  | zero => exact ⟨by rw [List.take_zero]; rfl, ⟨hsound, .refl⟩, [], rfl, .inl rfl⟩
  | succ n ih =>
      obtain ⟨t, ht, hrun⟩ := tcpFgets_run hmax hsound
      have hmoves := @tcpFgets_moves socket max hsound
      unfold fgetsCalls
      cases hwhole : whole Octet.isLf max (firstPiece max socket.pending) with
      | true =>
          rw [hwhole, if_pos rfl] at hrun
          obtain ⟨hcall, hsplit⟩ := hrun
          rw [hcall] at hmoves ⊢
          obtain ⟨hlines, ⟨hsound', hmoves'⟩, lost, hlost, hwhy⟩ := ih ht
          have hne : socket.pending ≠ [] := by
            intro hnil
            rw [hnil, firstPiece, piece_nil] at hwhole
            rcases Bool.or_eq_true_iff.mp hwhole with h | h
            · exact absurd (beq_iff_eq.mp h) (Nat.ne_of_lt hmax)
            · cases h
          have hdrop : socket.pending.drop (firstPiece max socket.pending).length = t.pending := by
            have h : (firstPiece max socket.pending ++ t.pending).drop (firstPiece max socket.pending).length =
              t.pending := List.drop_left
            rwa [← hsplit] at h
          refine ⟨?_, ⟨hsound', hmoves.trans hmoves'⟩, lost, ?_, ?_⟩
          · show firstPiece max socket.pending :: (fgetsCalls max n t).1 = _
            rw [pieces_eq hmax hne, hdrop, List.filter_cons_of_pos hwhole, List.take_succ_cons, hlines]
          · show socket.pending = (firstPiece max socket.pending :: (fgetsCalls max n t).1).flatten ++ lost ++
              (fgetsCalls max n t).2.pending
            rw [List.flatten_cons, List.append_assoc, List.append_assoc, ← List.append_assoc _ lost, ← hlost]
            exact hsplit
          · exact hwhy.imp_right fun h => Nat.succ_lt_succ h
      | false =>
          rw [hwhole, if_neg Bool.false_ne_true] at hrun
          obtain ⟨hcall, hend⟩ := hrun
          rw [hcall] at hmoves ⊢
          obtain ⟨hall, -⟩ := piece_eq_self hwhole
          refine ⟨?_, ⟨ht, hmoves⟩, socket.pending, ?_, .inr (Nat.succ_pos n)⟩
          · by_cases hne : socket.pending = []
            · rw [hne, pieces_nil]
              rfl
            · have hdrop : socket.pending.drop (firstPiece max socket.pending).length = [] := by
                rw [firstPiece, hall, List.drop_length]
              rw [pieces_eq hmax hne, hdrop, List.filter_cons_of_neg (by rw [hwhole]; exact Bool.false_ne_true)]
              rfl
          · show socket.pending = [] ++ socket.pending ++ t.pending
            rw [hend, List.append_nil, List.nil_append]

theorem connected_sound (recvs : List (List Byte)) : (connected recvs).Sound := ⟨clearBuf_length, Nat.zero_le _⟩

theorem connected_pending (recvs : List (List Byte)) :
    (connected recvs).pending = recvs.flatten.map (⟨·, false⟩) := rfl

end

end NullG.Net
