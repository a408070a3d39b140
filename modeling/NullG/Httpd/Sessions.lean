/-
The sessions of the users (`auth_setcookie`, with the look of `auth_renewcookie` at the token).

A login makes a token of the name and of the second, or of the name alone where that is `guest`. It deletes the oldest
rows of its user and domain, and writes a row with the token and the address. Nothing of the domain is in the token, and
nothing of the address. So a row that has the same name and second may be left where it is: one of a user of another
domain, or one of the user itself where the limit has room for it.
-/

import NullG.Httpd.Auth
import Mathlib.Data.List.Sort
import Mathlib.Data.List.Nodup

namespace NullG.Httpd.Sessions

open NullG.Nsp NullG.Httpd

/-- A login whose password is right, where `auth_setcookie` goes on. -/
structure Login where
  username : List Byte
  uid : Int
  did : Int
  /-- `ttime.tv_sec` -/
  sec : Nat
  remoteAddr : List Byte
  /-- a field came as XML -/
  xml : Bool
  deriving DecidableEq

/-- A row of `gw_users_sessions`. The columns `obj_ctime`, `obj_mtime`, `obj_uid`, `obj_did`, `token` and `remoteip` are
those that the login wrote. -/
structure Row where
  sessionid : Nat
  login : Login
  deriving DecidableEq

/-- The server: its setting, and what it uses. The database puts rows with the same `obj_mtime` in any order. -/
structure Server where
  md5 : List Byte → List Byte
  md5_injective : Function.Injective md5
  /-- `time_unix2sql` -/
  unix2sql : Nat → List Byte
  sessionLimit : Int
  one_le_limit : 1 ≤ sessionLimit
  /-- `ORDER BY obj_mtime DESC` -/
  orderBy : List Row → List Row
  orderBy_perm : ∀ rows, (orderBy rows).Perm rows
  orderBy_sorted : ∀ rows, (orderBy rows).Pairwise fun r r' => r'.login.sec ≤ r.login.sec

/-- The table `gw_users_sessions`, and the number of the next row. -/
structure Table where
  rows : List Row := []
  next : Nat := 1

section

variable (srv : Server)

/-- What goes into the token. -/
def seed (login : Login) : List Byte :=
  if login.username = bytes "guest" then login.username else login.username ++ srv.unix2sql login.sec

/-- `conn->dat->token`. -/
def token (login : Login) : List Byte := hexText (srv.md5 (seed srv login))

/-- `WHERE obj_uid = %d AND obj_did = %d`. -/
def owns (uid did : Int) (r : Row) : Bool := r.login.uid == uid && r.login.did == did

/-- `SELECT ... WHERE obj_uid = %d AND obj_did = %d ORDER BY obj_mtime DESC`. -/
def selected (table : Table) (login : Login) : List Row :=
  srv.orderBy (table.rows.filter (owns login.uid login.did))

/-- `DELETE ... WHERE sessionid = %d AND obj_uid = %d AND obj_did = %d`. -/
def delete (login : Login) (rows : List Row) (sessionid : Nat) : List Row :=
  rows.filter fun r => !(r.sessionid == sessionid && owns login.uid login.did r)

/-- The rows that the loop over the rows from `limit - 1` on leaves. -/
def kept (table : Table) (login : Login) : List Row :=
  (((selected srv table login).map (·.sessionid)).drop (srv.sessionLimit - 1).toNat).foldl (delete login) table.rows

/-- What `auth_setcookie` makes of the table, behind `auth_checkpass`. -/
def setcookie (table : Table) (login : Login) : Table :=
  if login.xml then table
  else { rows := kept srv table login ++ [⟨table.next, login⟩], next := table.next + 1 }

/-- `SELECT * FROM gw_users_sessions WHERE token = '%s' AND remoteip = '%s'`. -/
def found (table : Table) (login : Login) : List Row :=
  table.rows.filter fun r => token srv r.login == token srv login && r.login.remoteAddr == login.remoteAddr

/-- The sessions are well formed behind a login. -/
structure WellFormed (table : Table) (login : Login) : Prop where
  /-- `auth_renewcookie` finds one row -/
  found : (found srv table login).length = 1
  distinct : (table.rows.map fun r => token srv r.login).Nodup
  limited : ((table.rows.filter (owns login.uid login.did)).length : Int) ≤ srv.sessionLimit

/-- Something holds at each login of a run. -/
def Along (P : Table → Login → Prop) : Table → List Login → Prop
  | _, [] => True
  | table, login :: logins => P table login ∧ Along P (setcookie srv table login) logins

/-- No row has the same name and second, but one of the user itself that is not among its `limit - 1` latest ones. A
login by XML writes no row, and so needs one. -/
def Apart (table : Table) (login : Login) : Prop :=
  if login.xml then ∃ r ∈ table.rows, seed srv r.login = seed srv login ∧ r.login.remoteAddr = login.remoteAddr
  else
    ∀ r ∈ table.rows, seed srv r.login = seed srv login →
      owns login.uid login.did r ∧ r ∉ (selected srv table login).take (srv.sessionLimit - 1).toNat

end

/-! ### Tokens -/

/-- The digit of a half of a byte. -/
def hexDigit (n : Byte) : Byte := if n < 10 then n + ch '0' else n + (ch 'a' - 10)

theorem hexDigit_toNat {n : Byte} (h : n.toNat < 16) :
    (hexDigit n).toNat = if n.toNat < 10 then n.toNat + 48 else n.toNat + 87 := by
  unfold hexDigit
  by_cases hn : n.toNat < 10
  · rw [if_pos (UInt8.lt_iff_toNat_lt.mpr hn), if_pos hn, UInt8.toNat_add]
    have hzero : (ch '0').toNat = 48 := by decide
    omega
  · rw [if_neg (fun hlt => hn (UInt8.lt_iff_toNat_lt.mp hlt)), if_neg hn, UInt8.toNat_add]
    have hletter : (ch 'a' - 10).toNat = 87 := by decide
    omega

theorem hexDigit_inj {n m : Byte} (hn : n.toNat < 16) (hm : m.toNat < 16) (h : hexDigit n = hexDigit m) : n = m := by
  have heq := congrArg UInt8.toNat h
  rw [hexDigit_toNat hn, hexDigit_toNat hm] at heq
  apply UInt8.toNat.inj
  split at heq
  · split at heq
    · omega
    · omega
  · split at heq
    · omega
    · omega

theorem hexText_cons (c : Byte) (md : List Byte) :
    hexText (c :: md) = hexDigit (c / 16) :: hexDigit (c % 16) :: hexText md := rfl

theorem hexText_injective : Function.Injective hexText := by
  intro md
  induction md with
  | nil =>
      intro md' h
      cases md' with
      | nil => rfl
      | cons c md' =>
          rw [hexText_cons] at h
          exact nomatch h
  | cons c md ih =>
      intro md' h
      cases md' with
      | nil =>
          rw [hexText_cons] at h
          exact nomatch h
      | cons c' md' =>
          rw [hexText_cons, hexText_cons] at h
          obtain ⟨hhigh, hrest⟩ := List.cons.inj h
          obtain ⟨hlow, hmd⟩ := List.cons.inj hrest
          have hdiv : ∀ b : Byte, (b / 16).toNat = b.toNat / 16 := fun b => UInt8.toNat_div b 16
          have hmod : ∀ b : Byte, (b % 16).toNat = b.toNat % 16 := fun b => UInt8.toNat_mod b 16
          have hlt : ∀ b : Byte, b.toNat < 256 := UInt8.toNat_lt
          have h₁ := congrArg UInt8.toNat (hexDigit_inj (by rw [hdiv]; have := hlt c; omega)
            (by rw [hdiv]; have := hlt c'; omega) hhigh)
          have h₂ := congrArg UInt8.toNat (hexDigit_inj (by rw [hmod]; omega) (by rw [hmod]; omega) hlow)
          rw [hdiv, hdiv] at h₁
          rw [hmod, hmod] at h₂
          rw [ih hmd, show c = c' from UInt8.toNat.inj (by omega)]

section

variable {srv : Server} {table : Table} {login login' : Login}

/-- Two logins have one token if they have one name and second. -/
theorem token_eq_iff : token srv login = token srv login' ↔ seed srv login = seed srv login' := by
  unfold token
  rw [hexText_injective.eq_iff, srv.md5_injective.eq_iff]

/-! ### The rows that a login leaves -/

/-- The rows of the table have the numbers that were given to them. -/
structure Numbered (table : Table) : Prop where
  below : ∀ r ∈ table.rows, r.sessionid < table.next
  apart : (table.rows.map (·.sessionid)).Nodup

theorem Numbered.inj (h : Numbered table) {r r' : Row} (hr : r ∈ table.rows) (hr' : r' ∈ table.rows)
    (hid : r.sessionid = r'.sessionid) : r = r' :=
  List.inj_on_of_nodup_map h.apart hr hr' hid

theorem mem_delete {rows : List Row} {id : Nat} {r : Row} :
    r ∈ delete login rows id ↔ r ∈ rows ∧ ¬(r.sessionid = id ∧ owns login.uid login.did r = true) := by
  unfold delete
  rw [List.mem_filter, Bool.not_eq_true', Bool.and_eq_false_iff]
  constructor
  · rintro ⟨hr, h⟩
    refine ⟨hr, ?_⟩
    rintro ⟨hid, howns⟩
    rcases h with h | h
    · simp [hid] at h
    · rw [howns] at h
      exact nomatch h
  · rintro ⟨hr, h⟩
    refine ⟨hr, ?_⟩
    by_cases hid : r.sessionid = id
    · right
      exact Bool.eq_false_iff.mpr fun howns => h ⟨hid, howns⟩
    · left
      simpa using hid

/-- The loop leaves the rows, in their order, whose numbers it does not delete. -/
theorem foldl_delete (login : Login) (ids : List Nat) (rows : List Row) :
    (ids.foldl (delete login) rows).Sublist rows ∧
      ∀ r, r ∈ ids.foldl (delete login) rows ↔
        r ∈ rows ∧ ¬(r.sessionid ∈ ids ∧ owns login.uid login.did r = true) := by
  induction ids generalizing rows with
  | nil => exact ⟨List.Sublist.refl _, fun r => by simp⟩
  | cons id ids ih =>
      obtain ⟨hsub, hmem⟩ := ih (delete login rows id)
      rw [List.foldl_cons]
      refine ⟨hsub.trans List.filter_sublist, ?_⟩
      intro r
      rw [hmem, mem_delete, List.mem_cons]
      tauto

theorem kept_sublist : (kept srv table login).Sublist table.rows := (foldl_delete _ _ _).1

theorem mem_selected {r : Row} :
    r ∈ selected srv table login ↔ r ∈ table.rows ∧ owns login.uid login.did r = true := by
  unfold selected
  rw [(srv.orderBy_perm _).mem_iff, List.mem_filter]

/-- The rows that are deleted are those of the user behind the first `limit - 1`. -/
theorem mem_kept (h : Numbered table) {r : Row} : r ∈ kept srv table login ↔
    r ∈ table.rows ∧ r ∉ (selected srv table login).drop (srv.sessionLimit - 1).toNat := by
  unfold kept
  rw [(foldl_delete _ _ _).2, ← List.map_drop]
  refine and_congr_right fun hr => not_congr ?_
  constructor
  · rintro ⟨hid, -⟩
    obtain ⟨r', hr', heq⟩ := List.mem_map.mp hid
    have hmem := (mem_selected.mp (List.mem_of_mem_drop hr')).1
    rw [← h.inj hmem hr heq]
    exact hr'
  · intro hdrop
    exact ⟨List.mem_map_of_mem hdrop, (mem_selected.mp (List.mem_of_mem_drop hdrop)).2⟩

theorem selected_nodup (h : Numbered table) : (selected srv table login).Nodup :=
  (srv.orderBy_perm _).nodup_iff.mpr ((List.Nodup.of_map _ h.apart).filter _)

/-- A row of the user is among its first `limit - 1`, or is deleted. -/
theorem mem_take_iff (h : Numbered table) {r : Row} (hr : r ∈ table.rows)
    (howns : owns login.uid login.did r = true) (n : Nat) :
    r ∈ (selected srv table login).take n ↔ r ∉ (selected srv table login).drop n := by
  have hmem : r ∈ (selected srv table login).take n ++ (selected srv table login).drop n := by
    rw [List.take_append_drop]
    exact mem_selected.mpr ⟨hr, howns⟩
  have hnodup : ((selected srv table login).take n ++ (selected srv table login).drop n).Nodup := by
    rw [List.take_append_drop]
    exact selected_nodup h
  constructor
  · intro htake hdrop
    exact (List.nodup_append.mp hnodup).2.2 r htake r hdrop rfl
  · intro hdrop
    exact (List.mem_append.mp hmem).resolve_right hdrop

/-- The rows of the user that are left. -/
theorem kept_owns_length (h : Numbered table) :
    ((kept srv table login).filter (owns login.uid login.did)).length ≤ (srv.sessionLimit - 1).toNat := by
  have hnodup : ((kept srv table login).filter (owns login.uid login.did)).Nodup :=
    ((List.Nodup.of_map _ h.apart).sublist kept_sublist).filter _
  have hsub : (kept srv table login).filter (owns login.uid login.did) ⊆
      (selected srv table login).take (srv.sessionLimit - 1).toNat := by
    intro r hr
    obtain ⟨hkept, howns⟩ := List.mem_filter.mp hr
    obtain ⟨hmem, hdrop⟩ := (mem_kept h).mp hkept
    exact (mem_take_iff h hmem howns _).mpr hdrop
  exact (hnodup.subperm hsub).length_le.trans (List.length_take_le _ _)

end

/-! ### What holds behind every login -/

/-- The table behind logins that were apart. -/
structure Sound (srv : Server) (table : Table) : Prop where
  numbered : Numbered table
  distinct : (table.rows.map fun r => seed srv r.login).Nodup
  limited : ∀ uid did, ((table.rows.filter (owns uid did)).length : Int) ≤ srv.sessionLimit

section

variable {srv : Server} {table : Table} {login : Login}

theorem sound_empty (srv : Server) : Sound srv {} where
  numbered := ⟨nofun, List.nodup_nil⟩
  distinct := List.nodup_nil
  limited := fun _ _ => (Int.zero_le_ofNat 1).trans srv.one_le_limit

theorem setcookie_of_xml (h : login.xml = true) : setcookie srv table login = table := by
  unfold setcookie
  rw [if_pos h]

theorem setcookie_rows (h : login.xml = false) :
    (setcookie srv table login).rows = kept srv table login ++ [⟨table.next, login⟩] := by
  unfold setcookie
  rw [h]
  rfl

theorem setcookie_next (h : login.xml = false) : (setcookie srv table login).next = table.next + 1 := by
  unfold setcookie
  rw [h]
  rfl

theorem map_token_nodup {rows : List Row} :
    (rows.map fun r => token srv r.login).Nodup ↔ (rows.map fun r => seed srv r.login).Nodup := by
  have hcomp : (rows.map fun r => token srv r.login) =
      (rows.map fun r => seed srv r.login).map (hexText ∘ srv.md5) := by
    rw [List.map_map]
    rfl
  rw [hcomp]
  exact List.nodup_map_iff (hexText_injective.comp srv.md5_injective)

/-- The rows that are left have other names or seconds just where the login is apart from the rows there were. -/
theorem apart_iff_kept (h : Numbered table) (hxml : login.xml = false) :
    Apart srv table login ↔ ∀ r ∈ kept srv table login, seed srv r.login ≠ seed srv login := by
  unfold Apart
  rw [hxml, if_neg Bool.false_ne_true]
  constructor
  · intro hapart r hr hseed
    obtain ⟨hmem, hdrop⟩ := (mem_kept h).mp hr
    obtain ⟨howns, htake⟩ := hapart r hmem hseed
    exact htake ((mem_take_iff h hmem howns _).mpr hdrop)
  · intro hkept r hr hseed
    have hdrop : r ∈ (selected srv table login).drop (srv.sessionLimit - 1).toNat := by
      by_contra hdrop
      exact hkept r ((mem_kept h).mpr ⟨hr, hdrop⟩) hseed
    have howns := (mem_selected.mp (List.mem_of_mem_drop hdrop)).2
    exact ⟨howns, fun htake => (mem_take_iff h hr howns _).mp htake hdrop⟩

/-- The rows behind a login that writes one. -/
theorem seeds_nodup_iff (h : Sound srv table) (hxml : login.xml = false) :
    ((setcookie srv table login).rows.map fun r => seed srv r.login).Nodup ↔ Apart srv table login := by
  rw [apart_iff_kept h.numbered hxml, setcookie_rows hxml, List.map_append, List.map_singleton,
    ← List.concat_eq_append, List.nodup_concat]
  have hkept : ((kept srv table login).map fun r => seed srv r.login).Nodup :=
    h.distinct.sublist (kept_sublist.map _)
  constructor
  · rintro ⟨hnot, -⟩ r hr hseed
    exact hnot (List.mem_map.mpr ⟨r, hr, hseed⟩)
  · intro hne
    refine ⟨?_, hkept⟩
    intro hmem
    obtain ⟨r, hr, hseed⟩ := List.mem_map.mp hmem
    exact hne r hr hseed

theorem setcookie_numbered (h : Numbered table) (hxml : login.xml = false) :
    Numbered (setcookie srv table login) := by
  have hbelow : ∀ r ∈ kept srv table login, r.sessionid < table.next :=
    fun r hr => h.below r (kept_sublist.subset hr)
  constructor
  · rw [setcookie_rows hxml, setcookie_next hxml]
    intro r hr
    rcases List.mem_append.mp hr with hr | hr
    · exact (hbelow r hr).trans (Nat.lt_succ_self _)
    · rw [List.mem_singleton.mp hr]
      exact Nat.lt_succ_self _
  · rw [setcookie_rows hxml, List.map_append, List.map_singleton, ← List.concat_eq_append, List.nodup_concat]
    refine ⟨?_, h.apart.sublist (kept_sublist.map _)⟩
    intro hmem
    obtain ⟨r, hr, hid⟩ := List.mem_map.mp hmem
    exact absurd hid (hbelow r hr).ne

/-- No user has more rows than the limit, whoever logs in. -/
theorem setcookie_limited (h : Sound srv table) (hxml : login.xml = false) (uid did : Int) :
    (((setcookie srv table login).rows.filter (owns uid did)).length : Int) ≤ srv.sessionLimit := by
  rw [setcookie_rows hxml, List.filter_append, List.length_append, List.filter_singleton, Bool.cond_eq_ite]
  by_cases hnew : owns uid did ⟨table.next, login⟩ = true
  · have hsame : owns uid did = owns login.uid login.did := by
      unfold owns at hnew ⊢
      simp only [Bool.and_eq_true, beq_iff_eq] at hnew
      rw [hnew.1, hnew.2]
    have hleft : ((kept srv table login).filter (owns login.uid login.did)).length ≤ (srv.sessionLimit - 1).toNat :=
      kept_owns_length h.numbered
    have hone := srv.one_le_limit
    rw [if_pos hnew, hsame, List.length_singleton]
    omega
  · have hsub : ((kept srv table login).filter (owns uid did)).length ≤ (table.rows.filter (owns uid did)).length :=
      (kept_sublist.filter _).length_le
    have hlimit := h.limited uid did
    rw [if_neg hnew, List.length_nil]
    omega

theorem setcookie_sound (h : Sound srv table) (hapart : Apart srv table login) :
    Sound srv (setcookie srv table login) := by
  cases hxml : login.xml with
  | true =>
      rw [setcookie_of_xml hxml]
      exact h
  | false =>
      exact ⟨setcookie_numbered h.numbered hxml, (seeds_nodup_iff h hxml).mpr hapart, setcookie_limited h hxml⟩

/-! ### The row of the token -/

theorem mem_found {r : Row} :
    r ∈ found srv table login ↔
      r ∈ table.rows ∧ seed srv r.login = seed srv login ∧ r.login.remoteAddr = login.remoteAddr := by
  unfold found
  rw [List.mem_filter, Bool.and_eq_true, beq_iff_eq, beq_iff_eq, token_eq_iff]

/-- Where the rows are distinct, a row with the token is the only one. -/
theorem found_length_iff (h : (table.rows.map fun r => seed srv r.login).Nodup) :
    (found srv table login).length = 1 ↔
      ∃ r ∈ table.rows, seed srv r.login = seed srv login ∧ r.login.remoteAddr = login.remoteAddr := by
  constructor
  · intro hone
    obtain ⟨r, hr⟩ := List.length_eq_one_iff.mp hone
    exact ⟨r, mem_found.mp (hr ▸ List.mem_singleton_self r)⟩
  · rintro ⟨r, hr⟩
    have hmem := mem_found.mpr hr
    have hsub : found srv table login ⊆ [r] := by
      intro r' hr'
      obtain ⟨hrow, hseed, -⟩ := mem_found.mp hr'
      exact List.mem_singleton.mpr (List.inj_on_of_nodup_map h hrow hr.1 (hseed.trans hr.2.1.symm))
    have hnodup : (found srv table login).Nodup := (List.Nodup.of_map _ h).filter _
    have hle : (found srv table login).length ≤ 1 := (hnodup.subperm hsub).length_le
    have hpos := List.length_pos_of_mem hmem
    omega

/-- One login: the sessions are well formed behind it just where it is apart. -/
theorem wellFormed_setcookie (h : Sound srv table) :
    WellFormed srv (setcookie srv table login) login ↔ Apart srv table login := by
  cases hxml : login.xml with
  | true =>
      rw [setcookie_of_xml hxml]
      unfold Apart
      rw [hxml, if_pos rfl, ← found_length_iff h.distinct]
      exact ⟨WellFormed.found, fun hfound => ⟨hfound, map_token_nodup.mpr h.distinct, h.limited _ _⟩⟩
  | false =>
      constructor
      · intro hwell
        exact (seeds_nodup_iff h hxml).mp (map_token_nodup.mp hwell.distinct)
      · intro hapart
        have hsound := setcookie_sound h hapart
        refine ⟨(found_length_iff hsound.distinct).mpr ⟨⟨table.next, login⟩, ?_, rfl, rfl⟩,
          map_token_nodup.mpr hsound.distinct, hsound.limited _ _⟩
        rw [setcookie_rows hxml]
        exact List.mem_append_right _ (List.mem_singleton_self _)

/-- The logins of a run, one behind the other. -/
theorem along_iff (h : Sound srv table) (logins : List Login) :
    Along srv (fun table login => WellFormed srv (setcookie srv table login) login) table logins ↔
      Along srv (Apart srv) table logins := by
  induction logins generalizing table with
  | nil => rfl
  | cons login logins ih =>
      calc WellFormed srv (setcookie srv table login) login ∧ _
        _ ↔ Apart srv table login ∧ _ := and_congr_left' (wellFormed_setcookie h)
        _ ↔ Apart srv table login ∧ _ := and_congr_right fun hapart => ih (setcookie_sound h hapart)

end

/-- Behind every login of a run the sessions are well formed, just if every login is apart from the rows there are. -/
theorem sessions_wellFormed_iff (srv : Server) (logins : List Login) :
    Along srv (fun table login => WellFormed srv (setcookie srv table login) login) {} logins ↔
      Along srv (Apart srv) {} logins :=
  along_iff (sound_empty srv) logins

/-- A server with one session for each user, whose `md5` is the identity. -/
def plain : Server where
  md5 := id
  md5_injective := Function.injective_id
  unix2sql := fun n => List.replicate n (ch '0')
  sessionLimit := 1
  one_le_limit := le_refl 1
  orderBy := fun rows => rows.mergeSort fun r r' => r'.login.sec ≤ r.login.sec
  orderBy_perm := fun rows => List.mergeSort_perm rows _
  orderBy_sorted := fun rows => by
    refine (List.pairwise_mergeSort ?_ ?_ rows).imp fun h => of_decide_eq_true h
    · intro a b c hab hbc
      simp only [decide_eq_true_eq] at *
      omega
    · intro a b
      simp only [Bool.or_eq_true, decide_eq_true_eq]
      omega

/-- `guest` of one domain and `guest` of another have one token. -/
def guest (did : Int) : Login where
  username := bytes "guest"
  uid := did
  did := did
  sec := 5
  remoteAddr := bytes "192.0.2.1"
  xml := false

theorem not_sessions_wellFormed : ¬ ∀ (srv : Server) (logins : List Login),
    Along srv (fun table login => WellFormed srv (setcookie srv table login) login) {} logins := by
  intro h
  have hrun := h plain [guest 1, guest 2]
  have hapart := ((along_iff (sound_empty plain) _).mp hrun).2.1
  have hrow : (⟨1, guest 1⟩ : Row) ∈ (setcookie plain {} (guest 1)).rows := by
    rw [setcookie_rows rfl]
    exact List.mem_append_right _ (List.mem_singleton_self _)
  have howns := (hapart _ hrow rfl).1
  exact absurd howns (by decide)

end NullG.Httpd.Sessions
