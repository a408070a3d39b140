/-
How much of a connection is left to be read.

A call of `tcp_fgets` never finds more to be read than there was, and one that returns a line leaves
less, so that a loop which reads a line in every round has no more rounds than there are bytes.
-/

import NullG.Net.Tls

namespace NullG.Net

open NullG.Nsp NullG.Lib

/-- The bytes that were not received yet, in packets of either kind. -/
def TcpSocket.unread (socket : TcpSocket) : Nat := socket.recvs.flatten.length + socket.sslReads.flatten.length

section

variable {socket socket' : TcpSocket} {conn conn' : Conn} {max : Nat}

theorem readPacket_length (len : Nat) (packet : List Byte) (rest : List (List Byte)) :
    (readPacket len packet rest).1.length + (readPacket len packet rest).2.flatten.length =
      packet.length + rest.flatten.length := by
  unfold readPacket
  dsimp only
  split
  · rename_i hle
    rw [List.take_of_length_le hle]
  · simp only [List.flatten_cons, List.length_append, List.length_take, List.length_drop]
    omega

/-- What a call of `tcp_recv` reads was not received before. -/
theorem tcpRecv_unread (socket : TcpSocket) (len : Nat) :
    ((tcpRecv socket len).1.getD []).length + (tcpRecv socket len).2.unread ≤ socket.unread ∧
      (tcpRecv socket len).2.recvbufsize = socket.recvbufsize := by
  unfold tcpRecv
  dsimp only
  split
  · split
    · exact ⟨by simp, rfl⟩
    · exact ⟨by simp, rfl⟩
    · rename_i packet rest _ hreads
      refine ⟨?_, rfl⟩
      have hlen := readPacket_length (min len 16384) packet rest
      simp only [Option.getD_some, List.length_map, TcpSocket.unread, hreads, List.flatten_cons, List.length_append]
      omega
  · split
    · exact ⟨by simp [TcpSocket.unread], rfl⟩
    · rename_i packet rest hreads
      refine ⟨?_, rfl⟩
      have hlen := readPacket_length (min len 16384) packet rest
      have hflat := congrArg List.length (flatten_dropWhile_isEmpty socket.recvs)
      rw [hreads, List.flatten_cons, List.length_append] at hflat
      simp only [Option.getD_some, List.length_map, TcpSocket.unread]
      omega

theorem refill_unread (socket : TcpSocket) :
    (refill socket).2.recvbufsize + (refill socket).2.unread ≤ socket.recvbufsize + socket.unread := by
  unfold refill
  dsimp only
  generalize hstart : (if recvbufLen - socket.recvbufoffset - socket.recvbufsize - 2 < 1 then
    { socket with recvbuf := clearBuf, recvbufoffset := 0, recvbufsize := 0 } else socket) = start
  have hle : start.recvbufsize + start.unread ≤ socket.recvbufsize + socket.unread := by
    rw [← hstart]
    split
    · exact Nat.add_le_add_right (Nat.zero_le _) _
    · exact Nat.le_refl _
  obtain ⟨hread, hsize⟩ := tcpRecv_unread start (recvbufLen - start.recvbufoffset - start.recvbufsize - 2)
  split
  · rename_i hrecv
    rw [hrecv] at hread hsize
    simp only [Option.getD_none, List.length_nil] at hread hsize
    dsimp only
    omega
  · rename_i data after hrecv
    rw [hrecv] at hread hsize
    simp only [Option.getD_some] at hread hsize
    have hunread : TcpSocket.unread { after with
        recvbuf := store after.recvbuf (after.recvbufoffset + after.recvbufsize) data
        recvbufsize := after.recvbufsize + data.length } = after.unread := rfl
    rw [hunread]
    dsimp only
    omega

theorem copyLoop_length (max : Nat) (obuffer : List Octet) (size n : Nat) :
    (copyLoop max obuffer size n).1.length ≤ size := by
  induction obuffer generalizing size n with
  | nil =>
      cases size with
      | zero => exact Nat.le_refl _
      | succ size => exact Nat.zero_le _
  | cons c obuffer ih =>
      cases size with
      | zero => exact Nat.le_refl _
      | succ size =>
          unfold copyLoop
          split
          · split
            · exact Nat.succ_le_succ (Nat.zero_le _)
            · exact Nat.succ_le_succ (ih size (n + 1))
          · exact Nat.zero_le _

/-- A newline that was found was copied. -/
theorem copyLoop_lf {obuffer : List Octet} {size n : Nat} (h : (copyLoop max obuffer size n).2 = true) :
    (copyLoop max obuffer size n).1 ≠ [] := by
  cases obuffer with
  | nil => cases size <;> cases h
  | cons c obuffer =>
      cases size with
      | zero => cases h
      | succ size =>
          unfold copyLoop at h ⊢
          split
          · split <;> exact List.cons_ne_nil _ _
          · rename_i hmax
            rw [if_neg hmax] at h
            cases h

theorem compact_unread (socket : TcpSocket) :
    (compact socket).recvbufsize = socket.recvbufsize ∧ (compact socket).unread = socket.unread := by
  unfold compact
  split
  · exact ⟨rfl, rfl⟩
  · exact ⟨by dsimp only; omega, rfl⟩

/-- The line that the rounds of a call return was left before them. -/
theorem fgetsFrom_unread (max fuel : Nat) (buffer : List Octet) (socket : TcpSocket) :
    (fgetsFrom max fuel buffer socket).2.recvbufsize + (fgetsFrom max fuel buffer socket).2.unread ≤
        socket.recvbufsize + socket.unread ∧
      ∀ line, (fgetsFrom max fuel buffer socket).1 = some line → (line = [] → max = 0) ∧
        line.length + ((fgetsFrom max fuel buffer socket).2.recvbufsize + (fgetsFrom max fuel buffer socket).2.unread) ≤
          buffer.length + (socket.recvbufsize + socket.unread) := by
  induction fuel generalizing buffer socket with
  | zero => exact ⟨Nat.le_refl _, fun line h => by cases h⟩
  | succ fuel ih =>
      have hfill : (if socket.recvbufsize = 0 then refill socket else (true, socket)).2.recvbufsize +
          (if socket.recvbufsize = 0 then refill socket else (true, socket)).2.unread ≤
          socket.recvbufsize + socket.unread := by
        split
        · exact refill_unread socket
        · exact Nat.le_refl _
      unfold fgetsFrom
      split
      · rename_i hrun
        rw [hrun] at hfill
        exact ⟨hfill, fun line h => by cases h⟩
      · rename_i filled hrun
        rw [hrun] at hfill
        dsimp only at hfill ⊢
        have hcopied := copyLoop_length max (filled.recvbuf.drop filled.recvbufoffset) filled.recvbufsize buffer.length
        have hlf := @copyLoop_lf max (filled.recvbuf.drop filled.recvbufoffset) filled.recvbufsize buffer.length
        cases hcopy : copyLoop max (filled.recvbuf.drop filled.recvbufoffset) filled.recvbufsize buffer.length with
        | mk copied lf =>
            rw [hcopy] at hcopied hlf
            dsimp only at hcopied hlf ⊢
            have hunread : TcpSocket.unread { filled with
                recvbufoffset := filled.recvbufoffset + copied.length
                recvbufsize := filled.recvbufsize - copied.length } = filled.unread := rfl
            split
            · refine ⟨?_, fun line hline => ?_⟩
              · rw [hunread]
                dsimp only
                omega
              · cases hline
                refine ⟨fun hnil => ?_, ?_⟩
                · rename_i hmax
                  rw [hnil] at hmax
                  exact Nat.le_zero.mp hmax
                · rw [hunread, List.length_append]
                  dsimp only
                  omega
            · split
              · obtain ⟨hle, hline⟩ := ih (buffer ++ copied) (compact { filled with
                  recvbufoffset := filled.recvbufoffset + copied.length
                  recvbufsize := filled.recvbufsize - copied.length })
                rw [(compact_unread _).1, (compact_unread _).2, hunread] at hle hline
                dsimp only at hle hline
                refine ⟨by omega, fun line h => ⟨(hline line h).1, ?_⟩⟩
                have hlen := (hline line h).2
                rw [List.length_append] at hlen
                omega
              · refine ⟨?_, fun line hline => ?_⟩
                · rw [hunread]
                  dsimp only
                  omega
                · cases hline
                  refine ⟨fun hnil => absurd (List.append_eq_nil_iff.mp hnil).2 (hlf (by simpa using ‹¬ (!lf) = true›)), ?_⟩
                  rw [hunread, List.length_append]
                  dsimp only
                  omega

theorem left_eq (conn : Conn) : conn.left = conn.socket.recvbufsize + conn.socket.unread := Nat.add_assoc _ _ _

/-- A call of `tcp_fgets` leaves no more to be read than there was, and less where it returns a line. -/
theorem fgets_left (conn : Conn) (max : Nat) :
    (conn.fgets max).2.left ≤ conn.left ∧ (0 < max → (conn.fgets max).1.isSome → (conn.fgets max).2.left < conn.left) := by
  obtain ⟨hle, hline⟩ := fgetsFrom_unread max (conn.socket.pending.length + 1) [] conn.socket
  unfold Conn.fgets tcpFgets
  cases hrun : fgetsFrom max (conn.socket.pending.length + 1) [] conn.socket with
  | mk line socket =>
      rw [hrun] at hle hline
      cases line with
      | none =>
          rw [left_eq, left_eq]
          exact ⟨hle, fun _ h => by cases h⟩
      | some line =>
          obtain ⟨hne, hlen⟩ := hline line rfl
          rw [left_eq, left_eq]
          refine ⟨hle, fun hmax _ => ?_⟩
          have hpos : 0 < line.length := List.length_pos_iff.mpr fun h => Nat.ne_of_gt hmax (hne h)
          simp only [List.length_nil] at hlen
          dsimp only at hlen ⊢
          omega

/-- All that is pending is left. -/
theorem pending_length (conn : Conn) : conn.socket.pending.length ≤ conn.left := by
  have hbuffered : conn.socket.buffered.length ≤ conn.socket.recvbufsize := List.length_take_le _ _
  have hincoming : conn.socket.incoming.length ≤ conn.socket.unread := by
    unfold TcpSocket.incoming TcpSocket.unread
    split
    · have hsplit := congrArg (fun l => l.flatten.length)
        (List.takeWhile_append_dropWhile (p := fun (p : List Byte) => !p.isEmpty) (l := conn.socket.sslReads))
      simp only [List.flatten_append, List.length_append] at hsplit
      rw [List.length_map]
      omega
    · rw [List.length_map]
      omega
  rw [left_eq, TcpSocket.pending, List.length_append]
  omega

/-- A server never finds more to be read than there was. -/
theorem left_inv (n : Nat) : ConnInv fun conn => conn.left ≤ n where
  fgets _ h := (fgets_left _ _).1.trans h
  accept outcome h := by
    rename_i conn
    refine Nat.le_trans (Nat.le_of_eq ?_) h
    unfold Conn.accept sslAccept Conn.left
    dsimp only
    split
    · rfl
    · cases outcome <;> rfl
  send _ h := h
  setState _ h := h

end

end NullG.Net
