/-
The sockets of the script library (`libs/net/tcp.c`).

`recv` hands over packets, and 0 behind the last of them: the server has closed the connection. `_tls_read` has packets
of its own, and behind the last of them `tcp_recv` returns -1. `tcpFgets_run` says what `tcp_fgets` returns: the first
piece of the bytes that are left, whatever packets they come in.
-/

import NullG.Lib.LineBuffer
import NullG.Libs.Printf
import NullG.Mail.Text

namespace NullG.Libs

open NullG.Nsp NullG.Lib NullG.Mail

/-- `MAX_TCP_READ_SIZE`, and the size of `recvbuf`. -/
def maxTcpReadSize : Nat := 65536

/-- What a socket has sent. A call of `send` may take fewer bytes than it is given: `takes` says how many the calls take
that have a limit, and -1 is a limit of 0. -/
structure Output where
  takes : List Nat := []
  sent : List Byte := []

/-- `TCP_SOCKET`, as far as it is read here. -/
structure TcpSocket where
  /-- what `recv` hands over -/
  recvs : List (List Byte)
  /-- what `_tls_read` hands over -/
  tlsReads : List (List Byte) := []
  useTls : Bool := false
  /-- `recvbuf`, `recvbufoffset` and `recvbufsize` -/
  recvbuf : LineBuffer Byte := .clear 0 maxTcpReadSize
  out : Output := {}

/-- The packets that the socket reads. -/
def TcpSocket.packets (socket : TcpSocket) : List (List Byte) :=
  if socket.useTls then socket.tlsReads else socket.recvs

/-- The socket with other packets before it. -/
def TcpSocket.setPackets (packets : List (List Byte)) (socket : TcpSocket) : TcpSocket :=
  if socket.useTls then { socket with tlsReads := packets } else { socket with recvs := packets }

/-- `tcp_recv`: the bytes that were read, or -1. No packet is empty; of one that is too long the rest is read next
time. -/
def tcpRecv (max : Nat) (socket : TcpSocket) : Option (List Byte) × TcpSocket :=
  let max := min max maxTcpReadSize
  match socket.packets.dropWhile List.isEmpty with
  | [] => (if socket.useTls then none else some [], socket.setPackets [])
  | packet :: rest =>
      (some (packet.take max),
        socket.setPackets (if packet.length ≤ max then rest else packet.drop max :: rest))

/-- The first part of a round of `tcp_fgets`, where the buffer is empty: what `tcp_recv` has put into it. -/
def refill (max : Nat) (socket : TcpSocket) : Option (List Byte) × TcpSocket :=
  let socket :=
    if socket.recvbuf.room < 1 then { socket with recvbuf := .clear 0 maxTcpReadSize } else socket
  match tcpRecv (min socket.recvbuf.room max) socket with
  | (none, socket) => (none, socket)
  | (some data, socket) => (some data, { socket with recvbuf := socket.recvbuf.put data })

/-- The rounds of `tcp_fgets` from `retry` on; `buffer` was copied before. -/
def fgetsFrom (max : Nat) : Nat → List Byte → TcpSocket → Option (List Byte) × TcpSocket
  | 0, _, socket => (none, socket)
  | fuel + 1, buffer, socket =>
      match (if socket.recvbuf.size = 0 then refill max socket else (some socket.recvbuf.held, socket)) with
      | (none, socket) => (none, socket)
      -- the server has closed the connection
      | (some [], socket) => (some buffer, socket)
      | (some (_ :: _), socket) =>
          let (copied, lf) := LineBuffer.copy isNl (· == 0) max (socket.recvbuf.cells.drop socket.recvbuf.offset)
            socket.recvbuf.size buffer.length
          let buffer := buffer ++ copied
          let socket := { socket with recvbuf := socket.recvbuf.advance copied.length }
          if max ≤ buffer.length then (some buffer, socket)
          else if !lf then fgetsFrom max fuel buffer { socket with recvbuf := socket.recvbuf.compact 0 }
          else (some buffer, socket)

/-- All bytes that are still to be returned. -/
def TcpSocket.pending (socket : TcpSocket) : List Byte := socket.recvbuf.held ++ socket.packets.flatten

/-- `tcp_fgets`, with a round for each byte that is left: the line, or -1. -/
def tcpFgets (max : Nat) (socket : TcpSocket) : Option (List Byte) × TcpSocket :=
  fgetsFrom max (socket.pending.length + 1) [] socket

/-- `tcp_send`. -/
def tcpSend (buffer : List Byte) (socket : TcpSocket) : TcpSocket :=
  match socket.out.takes with
  | [] => { socket with out := { socket.out with sent := socket.out.sent ++ buffer } }
  | n :: takes => { socket with out := { takes := takes, sent := socket.out.sent ++ buffer.take n } }

/-- `tcp_fprintf`. There is no result if the buffer is too short: the text is written behind it. -/
def tcpFprintf (format : List Conv) (socket : TcpSocket) : Option TcpSocket :=
  (ncVsnprintf 2048 2047 format).map fun buffer => tcpSend buffer socket

/-- A connection on which the packets arrive. -/
def connected (recvs : List (List Byte)) : TcpSocket := { recvs := recvs }

/-! ### What `tcp_fgets` returns -/

/-- The buffer is where it may be. -/
abbrev TcpSocket.Sound (socket : TcpSocket) : Prop := socket.recvbuf.Sound maxTcpReadSize

/-- Two sockets that read from the same layer, with the same buffer and the same output. -/
structure Alike (s t : TcpSocket) : Prop where
  useTls : t.useTls = s.useTls
  recvbuf : t.recvbuf = s.recvbuf
  out : t.out = s.out

section

variable {socket : TcpSocket} {max : Nat}

theorem setPackets_packets (packets : List (List Byte)) (socket : TcpSocket) :
    (socket.setPackets packets).packets = packets := by
  cases h : socket.useTls <;> simp [TcpSocket.setPackets, TcpSocket.packets, h]

theorem setPackets_alike (packets : List (List Byte)) (socket : TcpSocket) :
    Alike socket (socket.setPackets packets) := by
  cases h : socket.useTls <;> constructor <;> simp [TcpSocket.setPackets, h]

theorem flatten_dropWhile_isEmpty (l : List (List Byte)) : (l.dropWhile List.isEmpty).flatten = l.flatten := by
  induction l with
  | nil => rfl
  | cons p l ih =>
      cases p with
      | nil => simpa using ih
      | cons c p => rfl

/-- What `tcp_recv` reads is what comes next. -/
theorem tcpRecv_run (socket : TcpSocket) (hmax : 0 < max) :
    (socket.packets.flatten = [] ∧ ∃ socket', tcpRecv max socket = (if socket.useTls then none else some [], socket') ∧
      socket'.packets.flatten = [] ∧ Alike socket socket') ∨
    ∃ data socket', tcpRecv max socket = (some data, socket') ∧ data ≠ [] ∧ data.length ≤ max ∧
      socket.packets.flatten = data ++ socket'.packets.flatten ∧ Alike socket socket' := by
  have hpos : 0 < min max maxTcpReadSize := Nat.lt_min.mpr ⟨hmax, by decide⟩
  have hle : min max maxTcpReadSize ≤ max := Nat.min_le_left _ _
  unfold tcpRecv
  dsimp only
  generalize min max maxTcpReadSize = n at hpos hle
  rw [← flatten_dropWhile_isEmpty socket.packets]
  cases hpackets : socket.packets.dropWhile List.isEmpty with
  | nil =>
      exact .inl ⟨rfl, socket.setPackets [], rfl, by rw [setPackets_packets]; rfl, setPackets_alike [] socket⟩
  | cons packet rest =>
      have hne : packet ≠ [] := by
        rintro rfl
        have h := List.head_dropWhile_not List.isEmpty (l := socket.packets) (by simp [hpackets])
        simp [hpackets] at h
      refine .inr ⟨packet.take n, _, rfl, ?_, ?_, ?_, setPackets_alike _ socket⟩
      · intro hnil
        rcases List.take_eq_nil_iff.mp hnil with h | h
        · exact absurd h (Nat.ne_of_gt hpos)
        · exact hne h
      · rw [List.length_take]
        omega
      · rw [setPackets_packets]
        by_cases hshort : packet.length ≤ n
        · rw [if_pos hshort, List.take_of_length_le hshort, List.flatten_cons]
        · rw [if_neg hshort, List.flatten_cons, List.flatten_cons, ← List.append_assoc, List.take_append_drop]

/-- An empty buffer is filled with what comes next, if there is anything. -/
theorem refill_run (hsound : socket.Sound) (hempty : socket.recvbuf.size = 0) (hmax : 0 < max) :
    (socket.pending = [] ∧ ∃ socket', refill max socket = (if socket.useTls then none else some [], socket') ∧
      socket'.Sound ∧ socket'.pending = [] ∧ socket'.useTls = socket.useTls ∧ socket'.out = socket.out) ∨
    ∃ c data socket', refill max socket = (some (c :: data), socket') ∧ socket'.Sound ∧ 0 < socket'.recvbuf.size ∧
      socket'.pending = socket.pending ∧ socket'.useTls = socket.useTls ∧ socket'.out = socket.out := by
  -- the buffer is cleared where there is no room behind the offset
  obtain ⟨start, hstart, hbuf, hroom, hheld, hpackets, htls, hout⟩ : ∃ start : TcpSocket,
      (if socket.recvbuf.room < 1 then { socket with recvbuf := .clear 0 maxTcpReadSize } else socket) = start ∧
      start.Sound ∧ 0 < start.recvbuf.room ∧ start.recvbuf.held = [] ∧ start.packets = socket.packets ∧
      start.useTls = socket.useTls ∧ start.out = socket.out := by
    by_cases hroom : socket.recvbuf.room < 1
    · rw [if_pos hroom]
      refine ⟨_, rfl, LineBuffer.clear_sound (by decide), ?_, LineBuffer.clear_held, rfl, rfl, rfl⟩
      dsimp only
      rw [LineBuffer.clear_room]
      decide
    · rw [if_neg hroom]
      exact ⟨socket, rfl, hsound, Nat.not_lt.mp hroom, LineBuffer.held_of_empty hempty, rfl, rfl, rfl⟩
  have hpending : socket.pending = start.packets.flatten := by
    rw [TcpSocket.pending, LineBuffer.held_of_empty hempty, hpackets, List.nil_append]
  have hread : 0 < min start.recvbuf.room max := Nat.lt_min.mpr ⟨hroom, hmax⟩
  unfold refill
  dsimp only
  rw [hstart, ← htls, hpending]
  rcases tcpRecv_run start hread with ⟨hnone, socket', hrun, hdone, halike⟩ |
    ⟨data, socket', hrun, hne, hle, hdata, halike⟩
  · refine .inl ⟨hnone, ?_⟩
    rw [hrun]
    have hsound' : socket'.Sound := by
      rw [TcpSocket.Sound, halike.recvbuf]
      exact hbuf
    have hdone' : socket'.pending = [] := by
      rw [TcpSocket.pending, halike.recvbuf, hheld, hdone]
      rfl
    cases htls' : start.useTls with
    | true => exact ⟨socket', rfl, hsound', hdone', halike.useTls.trans htls', halike.out.trans hout⟩
    | false =>
        have hput : (socket'.recvbuf.put []).Sound maxTcpReadSize ∧ (socket'.recvbuf.put []).held = _ :=
          LineBuffer.Sound.put hsound' (Nat.zero_le _)
        refine ⟨{ socket' with recvbuf := socket'.recvbuf.put [] }, rfl, hput.1, ?_, halike.useTls.trans htls',
          halike.out.trans hout⟩
        rw [TcpSocket.pending]
        dsimp only
        rw [hput.2, halike.recvbuf, hheld]
        exact hdone
  · obtain ⟨c, data, rfl⟩ := List.exists_cons_of_ne_nil hne
    have hfits : (c :: data).length ≤ socket'.recvbuf.room := by
      rw [halike.recvbuf]
      omega
    have hsound' : socket'.recvbuf.Sound maxTcpReadSize := by
      rw [halike.recvbuf]
      exact hbuf
    obtain ⟨hput, hheld'⟩ := hsound'.put hfits
    refine .inr ⟨c, data, { socket' with recvbuf := socket'.recvbuf.put (c :: data) }, ?_, hput, ?_, ?_,
      halike.useTls, halike.out.trans hout⟩
    · rw [hrun]
    · show 0 < socket'.recvbuf.size + (c :: data).length
      rw [List.length_cons]
      omega
    · rw [TcpSocket.pending]
      dsimp only
      rw [hheld', halike.recvbuf, hheld, hdata]
      rfl

/-- A round starts with bytes in the buffer, or it is the last one. -/
theorem fill_run (hsound : socket.Sound) (hmax : 0 < max) :
    (socket.pending = [] ∧ ∃ socket', (if socket.recvbuf.size = 0 then refill max socket
        else (some socket.recvbuf.held, socket)) = (if socket.useTls then none else some [], socket') ∧
      socket'.Sound ∧ socket'.pending = [] ∧ socket'.useTls = socket.useTls ∧ socket'.out = socket.out) ∨
    ∃ c data start, (if socket.recvbuf.size = 0 then refill max socket
        else (some socket.recvbuf.held, socket)) = (some (c :: data), start) ∧ start.Sound ∧
      0 < start.recvbuf.size ∧ start.pending = socket.pending ∧ start.useTls = socket.useTls ∧
      start.out = socket.out := by
  by_cases hempty : socket.recvbuf.size = 0
  · rw [if_pos hempty]
    exact refill_run hsound hempty hmax
  · rw [if_neg hempty]
    have hne : socket.recvbuf.held ≠ [] := by
      intro hnil
      have hlength := LineBuffer.Sound.held_length hsound
      rw [hnil] at hlength
      exact hempty hlength.symm
    obtain ⟨c, data, hheld⟩ := List.exists_cons_of_ne_nil hne
    exact .inr ⟨c, data, socket, by rw [hheld], hsound, Nat.pos_of_ne_zero hempty, rfl, rfl, rfl⟩

/-- The socket behind `n` bytes that were copied. -/
def TcpSocket.advance (n : Nat) (socket : TcpSocket) : TcpSocket :=
  { socket with recvbuf := socket.recvbuf.advance n }

/-- The socket with what the buffer holds at its start. -/
def TcpSocket.compact (socket : TcpSocket) : TcpSocket := { socket with recvbuf := socket.recvbuf.compact 0 }

/-- What a round copies is a first part of what is left. -/
theorem copied_run {n : Nat} (hsound : socket.Sound) (hsize : 0 < socket.recvbuf.size) (hn : n < max) :
    ∃ copied lf, LineBuffer.copy isNl (· == 0) max (socket.recvbuf.cells.drop socket.recvbuf.offset)
        socket.recvbuf.size n = (copied, lf) ∧ copied ≠ [] ∧ n + copied.length ≤ max ∧
      (lf = true → ∃ p c, copied = p ++ [c] ∧ Free isNl p ∧ isNl c = true) ∧ (lf = false → Free isNl copied) ∧
      (socket.advance copied.length).Sound ∧ socket.pending = copied ++ (socket.advance copied.length).pending := by
  have hlong : socket.recvbuf.size ≤ (socket.recvbuf.cells.drop socket.recvbuf.offset).length := by
    have hlength := hsound.length
    have hbound := hsound.bound
    rw [List.length_drop]
    omega
  obtain ⟨copied, lf, rest, hcopy, hsplit, hle, hne, hlf, hfree⟩ :=
    @LineBuffer.copy_run _ isNl (· == 0) max _ _ n hlong
  obtain ⟨hadvance, hheld⟩ := LineBuffer.Sound.advance hsound hsplit
  refine ⟨copied, lf, hcopy, hne hsize hn, by omega, hlf, hfree, hadvance, ?_⟩
  have hnext : (socket.advance copied.length).pending = rest ++ socket.packets.flatten := by
    rw [TcpSocket.pending, TcpSocket.advance]
    dsimp only
    rw [hheld]
    rfl
  have hheld' : socket.recvbuf.held = copied ++ rest := hsplit
  rw [hnext, TcpSocket.pending, hheld', List.append_assoc]

theorem compact_run (hsound : socket.Sound) : socket.compact.Sound ∧ socket.compact.pending = socket.pending := by
  obtain ⟨hcompact, hkept⟩ := LineBuffer.Sound.compact 0 hsound
  refine ⟨hcompact, ?_⟩
  rw [TcpSocket.pending, TcpSocket.pending, TcpSocket.compact]
  dsimp only
  rw [hkept]
  rfl

/-- What was copied is a whole piece where it ends with a newline or is full. -/
theorem piece_of_copied {buffer copied : List Byte} {lf : Bool} (rest : List Byte) (hbuffer : Free isNl buffer)
    (hlen : (buffer ++ copied).length ≤ max)
    (hlf : lf = true → ∃ p c, copied = p ++ [c] ∧ Free isNl p ∧ isNl c = true) (hfree : lf = false → Free isNl copied)
    (hend : lf = true ∨ max ≤ (buffer ++ copied).length) :
    piece isNl max ((buffer ++ copied) ++ rest) = buffer ++ copied ∧ whole isNl max (buffer ++ copied) = true := by
  cases lf with
  | true =>
      obtain ⟨p, c, rfl, hp, hc⟩ := hlf rfl
      rw [← List.append_assoc, List.length_append, List.length_singleton] at hlen
      refine ⟨?_, ?_⟩
      · rw [← List.append_assoc, ← List.append_cons]
        exact piece_of_ended (hbuffer.append hp) hc (Nat.lt_of_succ_le hlen) _
      · rw [whole, ← List.append_assoc, ended_concat, hc, Bool.or_true]
  | false =>
      have hfull : max ≤ (buffer ++ copied).length := hend.resolve_left Bool.false_ne_true
      have hlen' : (buffer ++ copied).length = max := Nat.le_antisymm hlen hfull
      refine ⟨piece_of_length (hbuffer.append (hfree rfl)) hlen' _, ?_⟩
      rw [whole, beq_iff_eq.mpr hlen', Bool.true_or]

/-- What was copied before the end is no whole piece. -/
theorem piece_of_rest {buffer : List Byte} (hbuffer : Free isNl buffer) (hlen : buffer.length < max) :
    piece isNl max buffer = buffer ∧ whole isNl max buffer = false := by
  refine ⟨piece_of_free hbuffer (Nat.le_of_lt hlen), ?_⟩
  rw [whole, hbuffer.not_ended, Bool.or_false]
  exact beq_eq_false_iff_ne.mpr (Nat.ne_of_lt hlen)

/-- What the rounds of `tcp_fgets` return: a piece that is whole, or all that is left behind the last packet. -/
theorem fgetsFrom_run {fuel : Nat} {buffer : List Byte} (hsound : socket.Sound) (hbuffer : Free isNl buffer)
    (hmax : buffer.length < max) (hfuel : socket.pending.length < fuel) :
    ∃ socket', socket'.Sound ∧ socket'.useTls = socket.useTls ∧ socket'.out = socket.out ∧
      buffer ++ socket.pending = piece isNl max (buffer ++ socket.pending) ++ socket'.pending ∧
      fgetsFrom max fuel buffer socket =
        (if !whole isNl max (piece isNl max (buffer ++ socket.pending)) && socket.useTls then none
          else some (piece isNl max (buffer ++ socket.pending)), socket') := by
  induction fuel generalizing buffer socket with
  | zero => exact absurd hfuel (Nat.not_lt_zero _)
  | succ fuel ih =>
      have hpos : 0 < max := Nat.lt_of_le_of_lt (Nat.zero_le _) hmax
      rcases fill_run hsound hpos with ⟨hnone, socket', hrun, hsound', hend, htls, hout⟩ |
        ⟨c, data, start, hrun, hstart, hsize, hpending, htls, hout⟩
      · refine ⟨socket', hsound', htls, hout, ?_⟩
        obtain ⟨hpiece, hpart⟩ := piece_of_rest hbuffer hmax
        rw [hnone, List.append_nil, hpiece, hpart, hend, List.append_nil]
        refine ⟨rfl, ?_⟩
        unfold fgetsFrom
        rw [hrun]
        cases socket.useTls <;> rfl
      · obtain ⟨copied, lf, hcopy, hne, hle, hlf, hfree, hadvance, hleft⟩ := copied_run hstart hsize hmax
        have hall : buffer ++ socket.pending = (buffer ++ copied) ++ (start.advance copied.length).pending := by
          rw [← hpending, hleft, List.append_assoc]
        have hlen : (buffer ++ copied).length ≤ max := by
          rw [List.length_append]
          exact hle
        have hround : fgetsFrom max (fuel + 1) buffer socket =
            if max ≤ (buffer ++ copied).length then (some (buffer ++ copied), start.advance copied.length)
            else if !lf then fgetsFrom max fuel (buffer ++ copied) (start.advance copied.length).compact
            else (some (buffer ++ copied), start.advance copied.length) := by
          rw [fgetsFrom, hrun]
          dsimp only
          rw [hcopy]
          rfl
        rw [hround, hall]
        by_cases hend : lf = true ∨ max ≤ (buffer ++ copied).length
        · obtain ⟨hpiece, hwhole⟩ :=
            piece_of_copied (start.advance copied.length).pending hbuffer hlen hlf hfree hend
          refine ⟨start.advance copied.length, hadvance, htls, hout, ?_⟩
          rw [hpiece, hwhole]
          refine ⟨rfl, ?_⟩
          rcases hend with rfl | hfull
          · simp
          · rw [if_pos hfull]
            rfl
        · rw [not_or, Bool.not_eq_true] at hend
          obtain ⟨rfl, hfull⟩ := hend
          obtain ⟨hcompact, hkept⟩ := compact_run hadvance
          have hless : (start.advance copied.length).compact.pending.length < fuel := by
            have hcopied : 0 < copied.length := List.length_pos_of_ne_nil hne
            have hcount := congrArg List.length hleft
            rw [List.length_append, hpending] at hcount
            rw [hkept]
            omega
          obtain ⟨socket', hsound', htls', hout', hend⟩ :=
            ih hcompact (hbuffer.append (hfree rfl)) (Nat.lt_of_not_le hfull) hless
          refine ⟨socket', hsound', htls'.trans htls, hout'.trans hout, ?_⟩
          rw [if_neg hfull, Bool.not_false, if_pos rfl]
          rw [hkept] at hend
          rw [show socket.useTls = (start.advance copied.length).compact.useTls from htls.symm]
          exact hend

/-- `tcp_fgets` returns the first piece of the bytes that are left. Where it is not whole, it is all that is left before
the server has closed the connection: -1 is returned then with TLS. -/
theorem tcpFgets_run (hmax : 0 < max) (hsound : socket.Sound) :
    ∃ socket', socket'.Sound ∧ socket'.useTls = socket.useTls ∧ socket'.out = socket.out ∧
      socket.pending = piece isNl max socket.pending ++ socket'.pending ∧
      tcpFgets max socket = (if !whole isNl max (piece isNl max socket.pending) && socket.useTls then none
        else some (piece isNl max socket.pending), socket') :=
  fgetsFrom_run hsound free_nil hmax (Nat.lt_succ_self _)

/-! ### The calls of `tcp_fgets` one after the other -/

/-- What the calls of `tcp_fgets` return, before the server has closed the connection. With TLS what is not whole is not
returned. -/
def TcpSocket.reads (max : Nat) (socket : TcpSocket) : List (List Byte) :=
  (pieces isNl max socket.pending).filter fun p => whole isNl max p || !socket.useTls

/-- `tcp_fgets` returns the first read. Behind the last one it returns an empty line for ever, and -1 with TLS. -/
theorem tcpFgets_reads (hmax : 0 < max) (hsound : socket.Sound) :
    ∃ socket', socket'.Sound ∧ socket'.useTls = socket.useTls ∧ socket'.out = socket.out ∧
      socket'.reads max = (socket.reads max).tail ∧
      tcpFgets max socket = ((socket.reads max).head?.or (if socket.useTls then none else some []), socket') := by
  obtain ⟨socket', hsound', htls, hout, hpending, hrun⟩ := tcpFgets_run hmax hsound
  refine ⟨socket', hsound', htls, hout, ?_⟩
  by_cases hnil : socket.pending = []
  · have hnone : socket.reads max = [] := by rw [TcpSocket.reads, hnil]; rfl
    have hnil' : socket'.pending = [] := by
      rw [hnil] at hpending
      exact (List.append_eq_nil_iff.mp hpending.symm).2
    have hnone' : socket'.reads max = [] := by rw [TcpSocket.reads, hnil']; rfl
    have hpart : whole isNl max [] = false := by
      simp [whole, ended_nil, Nat.ne_of_lt hmax]
    rw [hnone, hnone', hrun, hnil, piece_nil, hpart]
    cases socket.useTls <;> exact ⟨rfl, rfl⟩
  · have hsplit : pieces isNl max socket.pending =
        piece isNl max socket.pending :: pieces isNl max socket'.pending := by
      have hdrop : socket.pending.drop (piece isNl max socket.pending).length = socket'.pending := by
        conv => lhs; arg 2; rw [hpending]
        exact List.drop_left
      rw [pieces_eq hmax hnil, hdrop]
    have hreads : socket.reads max =
        (if whole isNl max (piece isNl max socket.pending) || !socket.useTls then [piece isNl max socket.pending]
          else []) ++ socket'.reads max := by
      rw [TcpSocket.reads, TcpSocket.reads, hsplit, List.filter_cons, htls]
      split <;> rfl
    rw [hrun, hreads]
    cases hwhole : whole isNl max (piece isNl max socket.pending) with
    | true => exact ⟨rfl, rfl⟩
    | false =>
        -- what is not whole is all that is left
        have hall : socket'.pending = [] := by
          have hself := (piece_eq_self hwhole).1
          rw [hself] at hpending
          exact List.append_right_eq_self.mp hpending.symm
        have hnone' : socket'.reads max = [] := by rw [TcpSocket.reads, hall]; rfl
        rw [hnone']
        cases socket.useTls <;> exact ⟨rfl, rfl⟩

/-! ### What was sent does not matter -/

/-- The socket with other output. -/
def TcpSocket.withOut (out : Output) (socket : TcpSocket) : TcpSocket := { socket with out := out }

@[simp] theorem withOut_reads (out : Output) : (socket.withOut out).reads max = socket.reads max := rfl

@[simp] theorem withOut_useTls (out : Output) : (socket.withOut out).useTls = socket.useTls := rfl

theorem tcpRecv_withOut (out : Output) :
    tcpRecv max (socket.withOut out) = ((tcpRecv max socket).1, (tcpRecv max socket).2.withOut out) := by
  have hset : ∀ packets, (socket.withOut out).setPackets packets = (socket.setPackets packets).withOut out := by
    intro packets
    unfold TcpSocket.setPackets
    rw [withOut_useTls]
    split <;> rfl
  have hpackets : (socket.withOut out).packets = socket.packets := rfl
  unfold tcpRecv
  dsimp only
  rw [hpackets, withOut_useTls]
  split <;> rw [hset]

theorem refill_withOut (out : Output) :
    refill max (socket.withOut out) = ((refill max socket).1, (refill max socket).2.withOut out) := by
  have hrun : ∀ start : TcpSocket,
      (match tcpRecv (min start.recvbuf.room max) (start.withOut out) with
        | (none, socket) => ((none : Option (List Byte)), socket)
        | (some data, socket) => (some data, { socket with recvbuf := socket.recvbuf.put data })) =
      ((match tcpRecv (min start.recvbuf.room max) start with
        | (none, socket) => ((none : Option (List Byte)), socket)
        | (some data, socket) => (some data, { socket with recvbuf := socket.recvbuf.put data })).1,
      (match tcpRecv (min start.recvbuf.room max) start with
        | (none, socket) => ((none : Option (List Byte)), socket)
        | (some data, socket) => (some data, { socket with recvbuf := socket.recvbuf.put data })).2.withOut out) := by
    intro start
    rw [tcpRecv_withOut]
    rcases tcpRecv (min start.recvbuf.room max) start with ⟨_ | data, socket⟩ <;> rfl
  unfold refill
  by_cases hroom : socket.recvbuf.room < 1
  · have hroom' : (socket.withOut out).recvbuf.room < 1 := hroom
    rw [if_pos hroom, if_pos hroom']
    exact hrun { socket with recvbuf := .clear 0 maxTcpReadSize }
  · have hroom' : ¬ (socket.withOut out).recvbuf.room < 1 := hroom
    rw [if_neg hroom, if_neg hroom']
    exact hrun socket

theorem fgetsFrom_withOut (socket : TcpSocket) (out : Output) {fuel : Nat} {buffer : List Byte} :
    fgetsFrom max fuel buffer (socket.withOut out) =
      ((fgetsFrom max fuel buffer socket).1, (fgetsFrom max fuel buffer socket).2.withOut out) := by
  induction fuel generalizing buffer socket with
  | zero => rfl
  | succ fuel ih =>
      have hfill : (if (socket.withOut out).recvbuf.size = 0 then refill max (socket.withOut out)
            else (some (socket.withOut out).recvbuf.held, socket.withOut out)) =
          ((if socket.recvbuf.size = 0 then refill max socket else (some socket.recvbuf.held, socket)).1,
            (if socket.recvbuf.size = 0 then refill max socket
              else (some socket.recvbuf.held, socket)).2.withOut out) := by
        by_cases hempty : socket.recvbuf.size = 0
        · rw [if_pos hempty, if_pos (show (socket.withOut out).recvbuf.size = 0 from hempty), refill_withOut]
        · rw [if_neg hempty, if_neg (show ¬ (socket.withOut out).recvbuf.size = 0 from hempty)]
          rfl
      rw [fgetsFrom, fgetsFrom, hfill]
      rcases (if socket.recvbuf.size = 0 then refill max socket else (some socket.recvbuf.held, socket)) with
        ⟨_ | _ | ⟨c, data⟩, start⟩
      · rfl
      · rfl
      · dsimp only
        have hbuf : (start.withOut out).recvbuf = start.recvbuf := rfl
        rw [hbuf]
        split
        · rfl
        · split
          · exact ih { start with recvbuf := (start.recvbuf.advance _).compact 0 }
          · rfl

theorem tcpFgets_withOut (max : Nat) (socket : TcpSocket) (out : Output) :
    tcpFgets max (socket.withOut out) = ((tcpFgets max socket).1, (tcpFgets max socket).2.withOut out) :=
  fgetsFrom_withOut socket out

theorem tcpSend_withOut (buffer : List Byte) (socket : TcpSocket) :
    ∃ out, tcpSend buffer socket = socket.withOut out := by
  unfold tcpSend
  split <;> exact ⟨_, rfl⟩

/-- A text that fits into the buffer of `tcp_fprintf`. -/
def Fits (format : List Conv) : Prop := (printed format).length ≤ 2047

instance (format : List Conv) : Decidable (Fits format) := inferInstanceAs (Decidable (_ ≤ _))

/-- A line is sent if it fits; else it is written behind the buffer. -/
theorem tcpFprintf_line (format : List Conv) {s : List Byte} (socket : TcpSocket) (hs : 2 ≤ s.length) :
    (Fits (format ++ [.text s]) ∧ ∃ out, tcpFprintf (format ++ [.text s]) socket = some (socket.withOut out)) ∨
    (¬ Fits (format ++ [.text s]) ∧ tcpFprintf (format ++ [.text s]) socket = none) := by
  have hcount : (printed (format ++ [.text s])).length = (printed format).length + s.length := by
    simp [Conv.printed]
  rw [tcpFprintf, ncVsnprintf_line hs, Fits, hcount]
  by_cases hfits : (printed format).length + s.length ≤ 2047
  · rw [if_pos hfits]
    obtain ⟨out, hout⟩ := tcpSend_withOut (printed format ++ s) socket
    exact .inl ⟨hfits, out, congrArg some hout⟩
  · rw [if_neg hfits]
    exact .inr ⟨hfits, rfl⟩

theorem connected_sound (recvs : List (List Byte)) : (connected recvs).Sound :=
  LineBuffer.clear_sound (by decide)

theorem connected_pending (recvs : List (List Byte)) : (connected recvs).pending = recvs.flatten := rfl

end

end NullG.Libs
