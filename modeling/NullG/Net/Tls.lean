/-
What a server reads behind a handshake.

`ConnInv` are the properties of a connection that a server keeps which does nothing with it but
read lines, send, set its state and accept handshakes. `Clean` is one: as long as every handshake
that was completed has found an empty buffer, all that was read from then on came from the TLS layer.
-/

import NullG.Net.Conn

namespace NullG.Net

open NullG.Nsp NullG.Lib

/-- The property is kept by all that a server does with a connection. -/
structure ConnInv (P : Conn → Prop) : Prop where
  fgets : ∀ {conn : Conn} {max : Nat}, 0 < max → P conn → P (conn.fgets max).2
  accept : ∀ {conn : Conn} (outcome : Handshake), P conn → P (conn.accept outcome)
  send : ∀ {conn : Conn} (text : List Byte), P conn → P (conn.send text)
  setState : ∀ {conn : Conn} (state : Nat), P conn → P { conn with state := state }

/-- Every line that was returned behind a handshake came from the TLS layer. -/
def TlsOnly (conn : Conn) : Prop := ∀ r ∈ conn.reads, r.1 = true → ∀ c ∈ r.2, c.tls = true

/-- Every handshake that was completed has found an empty buffer. -/
def ShakesEmpty (conn : Conn) : Prop := ∀ n ∈ conn.shakes, n = 0

instance (conn : Conn) : Decidable (TlsOnly conn) := inferInstanceAs (Decidable (∀ r ∈ conn.reads, _))

instance (conn : Conn) : Decidable (ShakesEmpty conn) := inferInstanceAs (Decidable (∀ n ∈ conn.shakes, _))

/-- With the layer that a connection reads from its lines are secure, once the handshakes are. -/
structure Clean (conn : Conn) : Prop where
  sound : conn.socket.Sound
  reads : ShakesEmpty conn → TlsOnly conn
  pending : ShakesEmpty conn → conn.socket.usingTls = true → ∀ c ∈ conn.socket.pending, c.tls = true

section

variable {socket socket' : TcpSocket} {conn : Conn} {max : Nat}

theorem refill_layer (socket : TcpSocket) :
    (refill socket).2.ssl = socket.ssl ∧ (refill socket).2.usingTls = socket.usingTls := by
  have hrecv : ∀ (s : TcpSocket) (len : Nat),
      (tcpRecv s len).2.ssl = s.ssl ∧ (tcpRecv s len).2.usingTls = s.usingTls := by
    intro s len
    unfold tcpRecv
    dsimp only
    split
    · split <;> exact ⟨rfl, rfl⟩
    · split <;> exact ⟨rfl, rfl⟩
  unfold refill
  dsimp only
  split
  · rename_i h
    have hlayer := congrArg Prod.snd h
    dsimp only at hlayer
    rw [← hlayer, (hrecv _ _).1, (hrecv _ _).2]
    split <;> exact ⟨rfl, rfl⟩
  · rename_i h
    have hlayer := congrArg Prod.snd h
    dsimp only at hlayer ⊢
    rw [← hlayer, (hrecv _ _).1, (hrecv _ _).2]
    split <;> exact ⟨rfl, rfl⟩

theorem Moves.layer (h : Moves socket socket') : socket'.ssl = socket.ssl ∧ socket'.usingTls = socket.usingTls := by
  cases h with
  | refill _ => exact refill_layer socket
  | copy _ => exact ⟨rfl, rfl⟩
  | compact =>
      unfold Net.compact
      split <;> exact ⟨rfl, rfl⟩

theorem moves_layer (h : Relation.ReflTransGen Moves socket socket') :
    socket'.ssl = socket.ssl ∧ socket'.usingTls = socket.usingTls := by
  induction h with
  | refl => exact ⟨rfl, rfl⟩
  | tail _ hstep ih => exact ⟨hstep.layer.1.trans ih.1, hstep.layer.2.trans ih.2⟩

theorem incoming_tls (h : socket.ssl = true) : ∀ c ∈ socket.incoming, c.tls = true := by
  intro c hc
  rw [TcpSocket.incoming, if_pos h] at hc
  obtain ⟨b, -, rfl⟩ := List.mem_map.mp hc
  rfl

/-- What a call returns was pending before, and so was what it leaves. -/
theorem tcpFgets_mem (hmax : 0 < max) (hsound : socket.Sound) :
    (tcpFgets max socket).2.Sound ∧ (tcpFgets max socket).2.usingTls = socket.usingTls ∧
      (∀ c ∈ (tcpFgets max socket).2.pending, c ∈ socket.pending) ∧
      ∀ line, (tcpFgets max socket).1 = some line → ∀ c ∈ line, c ∈ socket.pending := by
  obtain ⟨t, ht, hrun⟩ := tcpFgets_run hmax hsound
  have hlayer := (moves_layer (@tcpFgets_moves socket max hsound)).2
  cases hwhole : whole Octet.isLf max (firstPiece max socket.pending) with
  | true =>
      rw [hwhole, if_pos rfl] at hrun
      obtain ⟨hcall, hsplit⟩ := hrun
      rw [hcall] at hlayer ⊢
      refine ⟨ht, hlayer, fun c hc => ?_, fun line hline c hc => ?_⟩
      · rw [hsplit]
        exact List.mem_append_right _ hc
      · cases hline
        rw [hsplit]
        exact List.mem_append_left _ hc
  | false =>
      rw [hwhole, if_neg Bool.false_ne_true] at hrun
      obtain ⟨hcall, hend⟩ := hrun
      rw [hcall] at hlayer ⊢
      refine ⟨ht, hlayer, fun c hc => ?_, fun line hline => ?_⟩
      · rw [hend] at hc
        exact absurd hc List.not_mem_nil
      · cases hline

theorem Clean.fgets (hmax : 0 < max) (h : Clean conn) : Clean (conn.fgets max).2 := by
  obtain ⟨hsound, hlayer, hpending, hline⟩ := tcpFgets_mem hmax h.sound
  unfold Conn.fgets
  cases hcall : tcpFgets max conn.socket with
  | mk line socket =>
      rw [hcall] at hsound hlayer hpending hline
      cases line with
      | none => exact ⟨hsound, h.reads, fun hs ht c hc => h.pending hs (hlayer ▸ ht) c (hpending c hc)⟩
      | some line =>
          refine ⟨hsound, fun hs r hr ht c hc => ?_, fun hs ht c hc => h.pending hs (hlayer ▸ ht) c (hpending c hc)⟩
          rcases List.mem_append.mp hr with hr | hr
          · exact h.reads hs r hr ht c hc
          · obtain rfl := List.mem_singleton.mp hr
            exact h.pending hs (hlayer ▸ ht) c (hline line rfl c hc)

theorem accept_of_tls (outcome : Handshake) (h : conn.socket.usingTls = true) : conn.accept outcome = conn := by
  simp [Conn.accept, sslAccept, h]

theorem accept_of_not_done {outcome : Handshake} (hdone : outcome ≠ .done) (h : conn.socket.usingTls = false) :
    ∃ ssl, conn.accept outcome = { conn with socket := { conn.socket with ssl := ssl } } := by
  cases outcome with
  | noSsl => exact ⟨false, by simp [Conn.accept, sslAccept, h]⟩
  | failed => exact ⟨true, by simp [Conn.accept, sslAccept, h]⟩
  | done => exact absurd rfl hdone

theorem accept_done (h : conn.socket.usingTls = false) :
    conn.accept .done = { conn with
      socket := { conn.socket with ssl := true, usingTls := true }
      shakes := conn.shakes ++ [conn.socket.recvbufsize] } := by
  simp [Conn.accept, sslAccept, h]

theorem Clean.accept (outcome : Handshake) (h : Clean conn) : Clean (conn.accept outcome) := by
  by_cases htls : conn.socket.usingTls = true
  · rw [accept_of_tls outcome htls]
    exact h
  · have hplain : conn.socket.usingTls = false := Bool.eq_false_iff.mpr htls
    by_cases hdone : outcome = .done
    · rw [hdone, accept_done hplain]
      refine ⟨⟨h.sound.length, h.sound.bound⟩, fun hs => h.reads fun n hn => ?_, fun hs _ c hc => ?_⟩
      · exact hs n (List.mem_append_left _ hn)
      · -- nothing is left of what was received before
        have hempty : conn.socket.recvbufsize = 0 := hs _ (List.mem_append_right _ List.mem_cons_self)
        have hbuf : TcpSocket.buffered { conn.socket with ssl := true, usingTls := true } = [] :=
          buffered_of_empty hempty
        have hin : c ∈ TcpSocket.incoming { conn.socket with ssl := true, usingTls := true } := by
          have hc' : c ∈ TcpSocket.pending { conn.socket with ssl := true, usingTls := true } := hc
          rwa [TcpSocket.pending, hbuf, List.nil_append] at hc'
        exact incoming_tls rfl c hin
    · obtain ⟨ssl, hssl⟩ := accept_of_not_done hdone hplain
      rw [hssl]
      exact ⟨⟨h.sound.length, h.sound.bound⟩, h.reads, fun _ ht => absurd ht htls⟩

theorem clean_inv : ConnInv Clean where
  fgets hmax h := h.fgets hmax
  accept outcome h := h.accept outcome
  send _ h := ⟨h.sound, h.reads, h.pending⟩
  setState _ h := ⟨h.sound, h.reads, h.pending⟩

theorem clean_new (recvs sslReads : List (List Byte)) :
    Clean { socket := { recvs := recvs, sslReads := sslReads } } :=
  ⟨⟨clearBuf_length, Nat.zero_le _⟩, fun _ _ hr => absurd hr List.not_mem_nil, fun _ h => absurd h Bool.false_ne_true⟩

end

end NullG.Net
