import Hobbes.Hog.Framing
import Mathlib.Tactic.Common

/-!
# Frames arrive

What `srecv` returns is what `ssend` was given, unless there is nothing to send. When the connection is closed in a
frame, `srecv` throws unless a call was interrupted before.
-/

namespace Hobbes.Hog

open Core

/-- What is sent for a string. -/
def frame (s : Bytes) : Bytes := leBytes 8 s.length ++ s

@[simp] lemma frame_length (s : Bytes) : (frame s).length = 8 + s.length := by
  rw [frame, List.length_append, leBytes_length]

/-! ### Sending -/

namespace SendEnd

variable {c : SendEnd} {d : Bytes} {fuel : ℕ}

/-- No call fails but for an interrupt. -/
def Interrupted (c : SendEnd) : Prop := ∀ e, .fails e ∈ c.calls → e = EINTR

/-- Some bytes are moved from the front. -/
lemma move_spec {n : ℕ} (hn : 0 < n) (hnd : n ≤ d.length) (calls : List SendCall) :
    0 < (c.move d n calls).1 ∧ ∃ k, 0 < k ∧ k ≤ d.length ∧ (c.move d n calls).1.toNat = k ∧
      (c.move d n calls).2.sent = c.sent ++ d.take k :=
  ⟨Int.natCast_pos.2 hn, n, hn, hnd, Int.toNat_natCast n, rfl⟩

/-- A call is interrupted, or moves some bytes. -/
lemma send_cases (hc : c.Interrupted) (hd : d ≠ []) :
    (c.send d).2.Interrupted ∧
      ((c.send d).1 = -1 ∧ (c.send d).2.errno = EINTR ∧ (c.send d).2.sent = c.sent ∧
          (c.send d).2.calls.length + 1 = c.calls.length ∨
        0 < (c.send d).1 ∧ (c.send d).2.calls.length ≤ c.calls.length ∧
          ∃ k, 0 < k ∧ k ≤ d.length ∧ (c.send d).1.toNat = k ∧ (c.send d).2.sent = c.sent ++ d.take k) := by
  have hpos : 0 < d.length := List.length_pos_of_ne_nil hd
  have hmax : 0 < intMax := by decide
  obtain ⟨errno, calls, sent⟩ := c
  cases calls with
  | nil =>
    obtain ⟨hrc, k, hk⟩ := move_spec (c := ⟨errno, [], sent⟩) (by omega : 0 < min d.length intMax)
      (Nat.min_le_left _ _) []
    exact ⟨by simp [Interrupted, send, move], .inr ⟨hrc, le_rfl, k, hk⟩⟩
  | cons call calls =>
    have hrest : ∀ e, .fails e ∈ calls → e = EINTR := fun e he => hc e (List.mem_cons_of_mem _ he)
    cases call with
    | moves m =>
      obtain ⟨hrc, k, hk⟩ := move_spec (c := ⟨errno, .moves m :: calls, sent⟩)
        (by omega : 0 < min (m + 1) (min d.length intMax))
        (Nat.le_trans (Nat.min_le_right _ _) (Nat.min_le_left _ _)) calls
      exact ⟨hrest, .inr ⟨hrc, Nat.le_succ _, k, hk⟩⟩
    | fails e => exact ⟨hrest, .inl ⟨rfl, hc e List.mem_cons_self, rfl, rfl⟩⟩

lemma ssendLoop_spec (rc : ℤ) (hc : c.Interrupted) (hfuel : c.calls.length + d.length ≤ fuel) :
    ∃ rc' c', ssendLoop fuel rc c d = some (rc', c') ∧ c'.Interrupted ∧ c'.calls.length ≤ c.calls.length ∧
      c'.sent = c.sent ++ d ∧ (d = [] → rc' = rc) ∧ (d ≠ [] → 0 < rc') := by
  induction fuel generalizing rc c d with
  | zero =>
    obtain rfl : d = [] := List.eq_nil_of_length_eq_zero (by omega)
    exact ⟨rc, c, by rw [ssendLoop], hc, le_rfl, (List.append_nil _).symm, fun _ => rfl, fun h => absurd rfl h⟩
  | succ fuel ih =>
    cases d with
    | nil => exact ⟨rc, c, by rw [ssendLoop], hc, le_rfl, (List.append_nil _).symm, fun _ => rfl, fun h => absurd rfl h⟩
    | cons b d =>
      obtain ⟨hc', ⟨hrc, herrno, hsent, hcalls⟩ | ⟨hrc, hcalls, k, hk, hkd, hnat, hsent⟩⟩ :=
        send_cases hc (List.cons_ne_nil b d)
      · obtain ⟨rc', c', h, hc'', hcalls', hsent', -, hpos⟩ := ih (d := b :: d) (-1) hc' (by omega)
        refine ⟨rc', c', ?_, hc'', by omega, hsent ▸ hsent', nofun, fun _ => hpos (List.cons_ne_nil b d)⟩
        simp only [ssendLoop, hrc, herrno]
        exact h
      · obtain ⟨rc', c', h, hc'', hcalls', hsent', hzero, hpos⟩ :=
          ih (d := (b :: d).drop k) (c.send (b :: d)).1 hc' (by
            rw [List.length_drop]
            omega)
        refine ⟨rc', c', ?_, hc'', by omega, ?_, nofun, fun _ => ?_⟩
        · simp only [ssendLoop, hnat, if_neg (Int.not_le.2 hrc)]
          exact h
        · rw [hsent', hsent, List.append_assoc, List.take_append_drop]
        · by_cases hdrop : (b :: d).drop k = []
          · rwa [hzero hdrop]
          · exact hpos hdrop

/-- Everything is sent, and it is an error if there was nothing. -/
lemma ssend_spec (hc : c.Interrupted) (hfuel : c.calls.length + d.length ≤ fuel) :
    ∃ c', c'.Interrupted ∧ c'.calls.length ≤ c.calls.length ∧ c'.sent = c.sent ++ d ∧
      c.ssend fuel d = some (if d = [] then .error ⟨"error sending on connection: ", c'.errno⟩ else .ok c') := by
  obtain ⟨rc, c', h, hc', hcalls, hsent, hzero, hpos⟩ := ssendLoop_spec 0 hc hfuel
  refine ⟨c', hc', hcalls, hsent, ?_⟩
  rw [ssend, h, Option.map_some]
  by_cases hd : d = []
  · simp [hd, hzero hd]
  · simp only [if_neg hd, if_neg (Int.not_le.2 (hpos hd))]

end SendEnd

/-! ### Receiving -/

/-- All that comes. -/
def arrived : List Arrival → Bytes
  | [] => []
  | .piece b bs :: as => b :: bs ++ arrived as
  | .fails _ :: as => arrived as

namespace RecvEnd

variable {c : RecvEnd} {d : Bytes} {dsz fuel : ℕ}

/-- No call fails but for an interrupt. -/
def Interrupted (c : RecvEnd) : Prop := ∀ e, .fails e ∈ c.arrivals → e = EINTR

/-- When the connection is closed, `errno` will be that of an interrupt. -/
def Stale (c : RecvEnd) : Prop := c.errno = EINTR ∨ .fails EINTR ∈ c.arrivals

/-- What is left of a piece comes next. -/
lemma arrived_left (bs : Bytes) (as : List Arrival) :
    arrived (Arrival.left bs as) = bs ++ arrived as ∧ (Arrival.left bs as).length ≤ as.length + 1 ∧
      ∀ e, .fails e ∈ Arrival.left bs as ↔ .fails e ∈ as := by
  cases bs with
  | nil => exact ⟨rfl, Nat.le_succ _, fun _ => Iff.rfl⟩
  | cons b bs => exact ⟨rfl, le_rfl, fun e => by simp [Arrival.left]⟩

/-- The connection is closed, the call is interrupted, or there are some bytes. -/
inductive Receives (c : RecvEnd) (dsz : ℕ) : ℤ × Bytes × RecvEnd → Prop where
  | closed (h : c.arrivals = []) : Receives c dsz (0, [], c)
  | interrupted {as : List Arrival} (h : c.arrivals = .fails EINTR :: as) : Receives c dsz (-1, [], ⟨EINTR, as⟩)
  | bytes {n : ℕ} {as : List Arrival} (hn : 0 < n) (hdsz : n ≤ dsz) (hlength : n ≤ (arrived c.arrivals).length)
      (has : arrived as = (arrived c.arrivals).drop n) (hle : as.length ≤ c.arrivals.length)
      (hfails : ∀ e, .fails e ∈ as ↔ .fails e ∈ c.arrivals) :
      Receives c dsz (n, (arrived c.arrivals).take n, ⟨c.errno, as⟩)

lemma recv_spec (hc : c.Interrupted) (hdsz : 0 < dsz) : c.Receives dsz (c.recv dsz) := by
  obtain ⟨errno, arrivals⟩ := c
  cases arrivals with
  | nil => exact .closed rfl
  | cons a as =>
    cases a with
    | fails e =>
      obtain rfl := hc e List.mem_cons_self
      exact .interrupted rfl
    | piece b bs =>
      have hmax : 0 < intMax := by decide
      simp only [recv]
      generalize hn : min (bs.length + 1) (min dsz intMax) = n
      have hlength : n ≤ (b :: bs).length := hn ▸ Nat.min_le_left _ _
      obtain ⟨hleft, hle, hfails⟩ := arrived_left ((b :: bs).drop n) as
      have hfront : (b :: bs).take n = (arrived (.piece b bs :: as)).take n :=
        (List.take_append_of_le_length hlength).symm
      rw [hfront]
      refine .bytes (by omega) (by omega) ?_ ?_ hle fun e => by simp [hfails]
      · exact Nat.le_trans hlength (by simp [arrived])
      · exact hleft.trans (List.drop_append_of_le_length hlength).symm

/-- As much as is asked for is received when there is as much. -/
lemma srecvLoop_spec (rc : ℤ) (d : Bytes) (hc : c.Interrupted) (hdsz : dsz ≤ (arrived c.arrivals).length)
    (hfuel : c.arrivals.length + dsz ≤ fuel) :
    ∃ rc' c', srecvLoop fuel rc c d dsz = some (rc', d ++ (arrived c.arrivals).take dsz, c') ∧ c'.Interrupted ∧
      c'.arrivals.length ≤ c.arrivals.length ∧ arrived c'.arrivals = (arrived c.arrivals).drop dsz ∧
      (c'.Stale ↔ c.Stale) ∧ (dsz = 0 → rc' = rc) ∧ (0 < dsz → 0 < rc') := by
  induction fuel generalizing rc c d dsz with
  | zero =>
    obtain rfl : dsz = 0 := by omega
    exact ⟨rc, c, by simp [srecvLoop], hc, le_rfl, rfl, Iff.rfl, fun _ => rfl, fun h => absurd h (Nat.lt_irrefl 0)⟩
  | succ fuel ih =>
    cases dsz with
    | zero =>
      exact ⟨rc, c, by simp [srecvLoop], hc, le_rfl, rfl, Iff.rfl, fun _ => rfl, fun h => absurd h (Nat.lt_irrefl 0)⟩
    | succ dsz =>
      rw [srecvLoop]
      generalize hres : c.recv (dsz + 1) = res
      cases hres ▸ recv_spec hc (Nat.succ_pos dsz) with
      | closed h => simp [h, arrived] at hdsz
      | @interrupted as h =>
        have has : ∀ e, .fails e ∈ as → e = EINTR := fun e he => hc e (h ▸ List.mem_cons_of_mem _ he)
        have harr : arrived c.arrivals = arrived as := by rw [h, arrived]
        have hlen : c.arrivals.length = as.length + 1 := by rw [h, List.length_cons]
        rw [harr] at hdsz
        obtain ⟨rc', c', hloop, hc', hle, hleft, hstale, -, hpos⟩ :=
          ih (c := ⟨EINTR, as⟩) (-1) d has hdsz (by change as.length + _ ≤ _; omega)
        refine ⟨rc', c', ?_, hc', ?_, ?_, ?_, nofun, hpos⟩
        · rw [harr]
          exact hloop
        · exact Nat.le_trans hle (by change as.length ≤ _; omega)
        · rw [harr]
          exact hleft
        · exact hstale.trans (iff_of_true (.inl rfl) (.inr (h ▸ List.mem_cons_self)))
      | @bytes n as hn hndsz hlength has hle hfails =>
        have has' : ∀ e, .fails e ∈ as → e = EINTR := fun e he => hc e ((hfails e).1 he)
        have hrest : dsz + 1 - n ≤ (arrived as).length := by
          rw [has, List.length_drop]
          omega
        obtain ⟨rc', c', hloop, hc', hle', hleft, hstale, hzero, hpos⟩ :=
          ih (c := ⟨c.errno, as⟩) n (d ++ (arrived c.arrivals).take n) has' hrest (by change as.length + _ ≤ _; omega)
        refine ⟨rc', c', ?_, hc', Nat.le_trans hle' hle, ?_, ?_, nofun, fun _ => ?_⟩
        · have hnpos : ¬ (n : ℤ) ≤ 0 := by omega
          simp only [if_neg hnpos, Int.toNat_natCast]
          have htake : (arrived c.arrivals).take (dsz + 1) =
              (arrived c.arrivals).take n ++ (arrived as).take (dsz + 1 - n) := by
            rw [has, ← List.take_add, Nat.add_sub_cancel' hndsz]
          rw [htake, ← List.append_assoc]
          exact hloop
        · rw [hleft, has, List.drop_drop, Nat.add_sub_cancel' hndsz]
        · exact hstale.trans (or_congr Iff.rfl (hfails EINTR))
        · by_cases hmore : dsz + 1 - n = 0
          · rw [hzero hmore]
            omega
          · exact hpos (Nat.pos_of_ne_zero hmore)

/-- When less than is asked for comes, the loop ends only if `errno` is another one. -/
lemma srecvLoop_closed (rc : ℤ) (d : Bytes) (hc : c.Interrupted) (hdsz : (arrived c.arrivals).length < dsz) :
    (c.Stale → srecvLoop fuel rc c d dsz = none) ∧
      (¬ c.Stale → c.arrivals.length + dsz ≤ fuel →
        ∃ rc' d' c', srecvLoop fuel rc c d dsz = some (rc', d', c') ∧ rc' ≤ 0) := by
  induction fuel generalizing rc c d dsz with
  | zero =>
    cases dsz with
    | zero => exact absurd hdsz (Nat.not_lt_zero _)
    | succ dsz => exact ⟨fun _ => rfl, fun _ h => absurd h (by omega)⟩
  | succ fuel ih =>
    cases dsz with
    | zero => exact absurd hdsz (Nat.not_lt_zero _)
    | succ dsz =>
      rw [srecvLoop]
      generalize hres : c.recv (dsz + 1) = res
      cases hres ▸ recv_spec hc (Nat.succ_pos dsz) with
      | closed h =>
        refine ⟨fun hstale => ?_, fun hstale _ => ?_⟩
        · obtain herrno | hmem := hstale
          · simp only [herrno, ne_eq, not_true, if_false]
            exact (ih 0 d hc hdsz).1 (.inl herrno)
          · rw [h] at hmem
            cases hmem
        · have herrno : c.errno ≠ EINTR := fun h => hstale (.inl h)
          exact ⟨0, d, c, by simp [herrno], Int.le_refl 0⟩
      | @interrupted as h =>
        have has : ∀ e, .fails e ∈ as → e = EINTR := fun e he => hc e (h ▸ List.mem_cons_of_mem _ he)
        rw [h, arrived] at hdsz
        refine ⟨fun _ => (ih (c := ⟨EINTR, as⟩) (-1) d has hdsz).1 (.inl rfl), fun hstale => ?_⟩
        exact absurd (.inr (h ▸ List.mem_cons_self)) hstale
      | @bytes n as hn hndsz hlength has hle hfails =>
        have has' : ∀ e, .fails e ∈ as → e = EINTR := fun e he => hc e ((hfails e).1 he)
        have hrest : (arrived as).length < dsz + 1 - n := by
          rw [has, List.length_drop]
          omega
        have hstale : Stale ⟨c.errno, as⟩ ↔ c.Stale := or_congr Iff.rfl (hfails EINTR)
        have hnpos : ¬ (n : ℤ) ≤ 0 := by omega
        obtain ⟨hnone, hsome⟩ := ih (c := ⟨c.errno, as⟩) n (d ++ (arrived c.arrivals).take n) has' hrest
        simp only [if_neg hnpos, Int.toNat_natCast]
        rw [← hstale]
        exact ⟨hnone, fun h hfuel => hsome h (by change as.length + _ ≤ _; omega)⟩

/-- What is asked for is received, and it is an error if it is nothing. -/
lemma srecv_spec (hc : c.Interrupted) (hdsz : dsz ≤ (arrived c.arrivals).length)
    (hfuel : c.arrivals.length + dsz ≤ fuel) :
    ∃ c', c'.Interrupted ∧ c'.arrivals.length ≤ c.arrivals.length ∧
      arrived c'.arrivals = (arrived c.arrivals).drop dsz ∧ (c'.Stale ↔ c.Stale) ∧
      c.srecv fuel dsz = some (if dsz = 0 then .error ⟨"error receiving on connection: ", c'.errno⟩
        else .ok ((arrived c.arrivals).take dsz, c')) := by
  obtain ⟨rc, c', h, hc', hle, hleft, hstale, hzero, hpos⟩ := srecvLoop_spec 0 [] hc hdsz hfuel
  refine ⟨c', hc', hle, hleft, hstale, ?_⟩
  rw [srecv, h, Option.map_some]
  by_cases hd : dsz = 0
  · simp [hd, hzero hd]
  · simp only [if_neg hd, if_neg (Int.not_le.2 (hpos (Nat.pos_of_ne_zero hd))), List.nil_append]

/-- When less comes, there is an exception if `errno` is not that of an interrupt, and no end if it is. -/
lemma srecv_closed (fuel : ℕ) (hc : c.Interrupted) (hdsz : (arrived c.arrivals).length < dsz) :
    (c.Stale → c.srecv fuel dsz = none) ∧
      (¬ c.Stale → c.arrivals.length + dsz ≤ fuel → ∃ e, c.srecv fuel dsz = some (.error e)) := by
  obtain ⟨hnone, hsome⟩ := srecvLoop_closed 0 [] hc hdsz
  refine ⟨fun h => by rw [srecv, hnone h, Option.map_none], fun h hfuel => ?_⟩
  obtain ⟨rc, d, c', hloop, hrc⟩ := hsome h hfuel
  refine ⟨⟨"error receiving on connection: ", c'.errno⟩, ?_⟩
  rw [srecv, hloop, Option.map_some]
  exact congrArg some (if_pos hrc)

/-- The size of a frame is received. -/
lemma srecv_size {s rest : Bytes} (hs : s.length < 2 ^ 64) (hc : c.Interrupted)
    (h : arrived c.arrivals = leBytes 8 s.length ++ rest) (hfuel : c.arrivals.length + 8 ≤ fuel) :
    ∃ c' d, c'.Interrupted ∧ c'.arrivals.length ≤ c.arrivals.length ∧ arrived c'.arrivals = rest ∧
      (c'.Stale ↔ c.Stale) ∧ c.srecv fuel 8 = some (.ok (d, c')) ∧ leNat d = s.length := by
  have hlen : (leBytes 8 s.length).length = 8 := leBytes_length 8 s.length
  have hdsz : 8 ≤ (arrived c.arrivals).length := by
    rw [h, List.length_append, hlen]
    exact Nat.le_add_right _ _
  obtain ⟨c', hc', hle, hleft, hstale, hsrecv⟩ := srecv_spec hc hdsz hfuel
  refine ⟨c', leBytes 8 s.length, hc', hle, ?_, hstale, ?_, ?_⟩
  · rw [hleft, h, List.drop_left' hlen]
  · rw [hsrecv, h, List.take_left' hlen]
    rfl
  · rw [leNat_leBytes]
    exact Nat.mod_eq_of_lt hs

/-- More calls do not change the result. -/
lemma srecvLoop_mono {rc : ℤ} {fuel' : ℕ} {res : ℤ × Bytes × RecvEnd} (h : srecvLoop fuel rc c d dsz = some res)
    (hfuel : fuel ≤ fuel') : srecvLoop fuel' rc c d dsz = some res := by
  induction fuel generalizing rc c d dsz fuel' with
  | zero =>
    cases dsz with
    | zero => rwa [srecvLoop] at h ⊢
    | succ dsz => cases h
  | succ fuel ih =>
    cases dsz with
    | zero => rwa [srecvLoop] at h ⊢
    | succ dsz =>
      obtain ⟨fuel', rfl⟩ := Nat.exists_eq_succ_of_ne_zero (Nat.ne_of_gt (Nat.lt_of_lt_of_le (Nat.succ_pos _) hfuel))
      rw [srecvLoop] at h ⊢
      generalize c.recv (dsz + 1) = res' at h ⊢
      obtain ⟨rc', bs, c'⟩ := res'
      simp only at h ⊢
      split_ifs at h ⊢ with hrc herrno
      · exact h
      · exact ih h (Nat.le_of_succ_le_succ hfuel)
      · exact ih h (Nat.le_of_succ_le_succ hfuel)

lemma srecv_mono {fuel' : ℕ} {res : Except IoError (Bytes × RecvEnd)} (h : c.srecv fuel dsz = some res)
    (hfuel : fuel ≤ fuel') : c.srecv fuel' dsz = some res := by
  obtain ⟨x, hx, hres⟩ := Option.map_eq_some_iff.1 h
  rw [srecv, srecvLoop_mono hx hfuel, Option.map_some, hres]

end RecvEnd

/-! ### Buffers -/

lemma le_uptoPow2Loop {x : ℕ} (hx : x < 2 ^ 64) {k j : ℕ} (hkj : j + k = 64) : x ≤ uptoPow2Loop x k (2 ^ j) := by
  induction k generalizing j with
  | zero =>
    obtain rfl : j = 64 := hkj
    exact Nat.le_of_lt hx
  | succ k ih =>
    simp only [uptoPow2Loop]
    split_ifs with hlt hwrap
    · exact le_rfl
    · have hdouble : 2 * 2 ^ j = 2 ^ (j + 1) := (Nat.pow_succ').symm
      by_cases hj : j + 1 = 64
      · rw [hdouble, hj, Nat.mod_self] at hwrap
        exact absurd (Nat.pow_pos (by decide : 0 < 2)) hwrap
      · rw [hdouble, Nat.mod_eq_of_lt (Nat.pow_lt_pow_right (by decide) (by omega))]
        exact ih (by omega)
    · exact Nat.le_of_not_lt hlt

/-- There is room for as many bytes as are asked for. -/
lemma Buffer.le_reserve {sz : ℕ} (hsz : sz < 2 ^ 64) (b : Buffer) (fresh : Bytes) :
    sz ≤ (b.reserve fresh sz).allocsz := by
  rw [Buffer.reserve]
  split_ifs with hlt
  · exact le_uptoPow2Loop hsz (k := 64) (j := 0) rfl
  · exact Nat.le_of_not_lt hlt

/-! ### Frames -/

/-- A string is sent to the end, and received at the other one with nothing that comes after it. -/
structure Frames (s : Bytes) (c : SendEnd) (r : RecvEnd) (rest : Bytes) : Prop where
  sent : ∃ fuel c', c.ssendString fuel s = some (.ok c') ∧ c'.sent = c.sent ++ frame s
  string : ∃ fuel r', r.srecvString fuel = some (.ok (s, r')) ∧ arrived r'.arrivals = rest
  vector : ∃ fuel r', r.srecvVector fuel = some (.ok (s, r')) ∧ arrived r'.arrivals = rest
  buffer : ∀ b fresh, ∃ fuel b' r', r.srecvBuffer fuel b fresh = some (.ok (b', r')) ∧ b'.data.take b'.size = s ∧
    b'.size ≤ b'.allocsz ∧ arrived r'.arrivals = rest

/-- Nothing is received but an exception. -/
structure RecvEnd.Throws (r : RecvEnd) : Prop where
  string : ∃ fuel e, r.srecvString fuel = some (.error e)
  vector : ∃ fuel e, r.srecvVector fuel = some (.error e)
  buffer : ∀ b fresh, ∃ fuel e, r.srecvBuffer fuel b fresh = some (.error e)

namespace IoResult

variable {α β : Type}

lemma bind_eq_some {x : IoResult α} {f : α → IoResult β} {v : Except IoError β} :
    x.bind f = some v ↔ (∃ a, x = some (.ok a) ∧ f a = some v) ∨ ∃ e, x = some (.error e) ∧ v = .error e := by
  rcases x with _ | e | a <;> simp [IoResult.bind, eq_comm]

end IoResult

/-- An empty string is sent with an exception. -/
lemma SendEnd.ssend_nil (fuel : ℕ) (c : SendEnd) :
    c.ssend fuel [] = some (.error ⟨"error sending on connection: ", c.errno⟩) := by
  simp [ssend, ssendLoop]

lemma frames_of_ne_nil {s rest : Bytes} (hs : s.length < 2 ^ 64) (hne : s ≠ []) {c : SendEnd} (hc : c.Interrupted)
    {r : RecvEnd} (hr : r.Interrupted) (h : arrived r.arrivals = frame s ++ rest) : Frames s c r rest := by
  have hlen : s.length ≠ 0 := fun h => hne (List.eq_nil_of_length_eq_zero h)
  have hrecv : ∃ fuel r₁ d r', r.srecv fuel 8 = some (.ok (d, r₁)) ∧ leNat d = s.length ∧
      r₁.srecv fuel s.length = some (.ok (s, r')) ∧ arrived r'.arrivals = rest := by
    obtain ⟨fuel, hfuel⟩ : ∃ fuel, fuel = r.arrivals.length + 8 + s.length := ⟨_, rfl⟩
    rw [frame, List.append_assoc] at h
    obtain ⟨r₁, d, hr₁, hle, hleft, -, hsize, hd⟩ := RecvEnd.srecv_size hs hr h (by omega : _ ≤ fuel)
    have hthere : s.length ≤ (arrived r₁.arrivals).length := by simp [hleft]
    obtain ⟨r', -, -, hleft', -, hsrecv⟩ := RecvEnd.srecv_spec hr₁ hthere (by omega : _ ≤ fuel)
    rw [if_neg hlen, hleft, List.take_left] at hsrecv
    rw [hleft, List.drop_left] at hleft'
    exact ⟨_, r₁, d, r', hsize, hd, hsrecv, hleft'⟩
  obtain ⟨fuel, r₁, d, r', hsize, hd, hsrecv, hleft⟩ := hrecv
  have hsized : r.srecvSized fuel = some (.ok (s, r')) := by
    rw [RecvEnd.srecvSized, hsize, IoResult.bind]
    simp only [hd, hsrecv]
  refine ⟨?_, ⟨fuel, r', hsized, hleft⟩, ⟨fuel, r', hsized, hleft⟩, fun b fresh => ?_⟩
  · obtain ⟨fuel, hfuel⟩ : ∃ fuel, fuel = c.calls.length + 8 + s.length := ⟨_, rfl⟩
    have hlength : (leBytes 8 s.length).length = 8 := leBytes_length 8 s.length
    have hbytes : leBytes 8 s.length ≠ [] := List.ne_nil_of_length_eq_add_one hlength
    obtain ⟨c₁, hc₁, hcalls, hsent, hfirst⟩ :=
      SendEnd.ssend_spec (d := leBytes 8 s.length) hc (by omega : _ ≤ fuel)
    obtain ⟨c', -, -, hsent', hsecond⟩ := SendEnd.ssend_spec (d := s) hc₁ (by omega : _ ≤ fuel)
    rw [if_neg hbytes] at hfirst
    rw [if_neg hne] at hsecond
    refine ⟨fuel, c', ?_, by rw [hsent', hsent, frame, List.append_assoc]⟩
    rw [SendEnd.ssendString, hfirst, IoResult.bind, hsecond]
  · set b' := b.reserve fresh s.length
    refine ⟨fuel, { b' with data := s ++ b'.data.drop s.length, size := s.length }, r', ?_, ?_, ?_, hleft⟩
    · rw [RecvEnd.srecvBuffer, hsize, IoResult.bind]
      simp only [hd, hsrecv]
      rfl
    · exact List.take_left
    · exact Buffer.le_reserve hs b fresh

lemma ne_nil_of_frames {s rest : Bytes} {c : SendEnd} {r : RecvEnd} (h : Frames s c r rest) : s ≠ [] := by
  rintro rfl
  obtain ⟨fuel, c', hsend, -⟩ := h.sent
  obtain ⟨c₁, -, hsend⟩ | ⟨e, -, he⟩ := IoResult.bind_eq_some.1 hsend
  · rw [SendEnd.ssend_nil] at hsend
    cases hsend
  · cases he

section

variable {s : Bytes} {r : RecvEnd} {k : ℕ}

/-- The second call of a frame that is not complete, or else the first one, does not return or throws. -/
lemma srecv_cut (hs : s.length < 2 ^ 64) (hr : r.Interrupted) (hk : k < (frame s).length)
    (h : arrived r.arrivals = (frame s).take k) {fuel : ℕ} (hfuel : r.arrivals.length + 8 + s.length ≤ fuel) :
    (r.Stale → r.srecv fuel 8 = none ∨
        ∃ d r₁, r.srecv fuel 8 = some (.ok (d, r₁)) ∧ r₁.srecv fuel (leNat d) = none) ∧
      (¬ r.Stale → (∃ e, r.srecv fuel 8 = some (.error e)) ∨
        ∃ d r₁ e, r.srecv fuel 8 = some (.ok (d, r₁)) ∧ r₁.srecv fuel (leNat d) = some (.error e)) := by
  have hlength : (leBytes 8 s.length).length = 8 := leBytes_length 8 s.length
  by_cases hk8 : k < 8
  · have hless : (arrived r.arrivals).length < 8 := by
      rw [h, List.length_take]
      omega
    obtain ⟨hnone, herror⟩ := RecvEnd.srecv_closed fuel hr hless
    exact ⟨fun hstale => .inl (hnone hstale), fun hstale => .inl (herror hstale (by omega))⟩
  · rw [frame_length] at hk
    rw [frame, List.take_append, List.take_of_length_le (by omega), hlength] at h
    obtain ⟨r₁, d, hr₁, hle, hleft, hstale₁, hsize, hd⟩ := RecvEnd.srecv_size hs hr h (by omega : _ ≤ fuel)
    have hless : (arrived r₁.arrivals).length < leNat d := by
      rw [hleft, List.length_take, hd]
      omega
    obtain ⟨hnone, herror⟩ := RecvEnd.srecv_closed fuel hr₁ hless
    rw [hstale₁] at hnone herror
    refine ⟨fun hstale => .inr ⟨d, r₁, hsize, hnone hstale⟩, fun hstale => ?_⟩
    obtain ⟨e, he⟩ := herror hstale (by omega)
    exact .inr ⟨d, r₁, e, hsize, he⟩

lemma throws_iff (hs : s.length < 2 ^ 64) (hr : r.Interrupted) (hk : k < (frame s).length)
    (h : arrived r.arrivals = (frame s).take k) : r.Throws ↔ ¬ r.Stale := by
  obtain ⟨fuel₀, hfuel₀⟩ : ∃ fuel, fuel = r.arrivals.length + 8 + s.length := ⟨_, rfl⟩
  refine ⟨fun hthrows hstale => ?_, fun hstale => ?_⟩
  · obtain ⟨fuel, e, hsized⟩ := hthrows.string
    obtain ⟨hnone, -⟩ := srecv_cut hs hr hk h (by omega : _ ≤ fuel + fuel₀)
    obtain ⟨⟨d, r₁⟩, hsize, hsrecv⟩ | ⟨e, hsize, -⟩ := IoResult.bind_eq_some.1 hsized
    · replace hsize := RecvEnd.srecv_mono hsize (Nat.le_add_right fuel fuel₀)
      replace hsrecv := RecvEnd.srecv_mono hsrecv (Nat.le_add_right fuel fuel₀)
      obtain hnone | ⟨d', r₁', hsize', hnone⟩ := hnone hstale
      · rw [hnone] at hsize
        cases hsize
      · obtain ⟨rfl, rfl⟩ : d' = d ∧ r₁' = r₁ := by simpa [hsize] using hsize'.symm
        rw [hnone] at hsrecv
        cases hsrecv
    · replace hsize := RecvEnd.srecv_mono hsize (Nat.le_add_right fuel fuel₀)
      obtain hnone | ⟨d', r₁', hsize', -⟩ := hnone hstale
      · rw [hnone] at hsize
        cases hsize
      · rw [hsize'] at hsize
        cases hsize
  · obtain ⟨-, hthrows⟩ := srecv_cut hs hr hk h (by omega : _ ≤ fuel₀)
    obtain ⟨e, hsize⟩ | ⟨d, r₁, e, hsize, hsrecv⟩ := hthrows hstale
    · have hsized : r.srecvSized fuel₀ = some (.error e) := IoResult.bind_eq_some.2 (.inr ⟨e, hsize, rfl⟩)
      exact ⟨⟨_, e, hsized⟩, ⟨_, e, hsized⟩, fun b fresh => ⟨_, e, IoResult.bind_eq_some.2 (.inr ⟨e, hsize, rfl⟩)⟩⟩
    · have hsized : r.srecvSized fuel₀ = some (.error e) :=
        IoResult.bind_eq_some.2 (.inl ⟨(d, r₁), hsize, hsrecv⟩)
      refine ⟨⟨_, e, hsized⟩, ⟨_, e, hsized⟩, fun b fresh => ⟨fuel₀, e, ?_⟩⟩
      exact IoResult.bind_eq_some.2 (.inl ⟨(d, r₁), hsize, IoResult.bind_eq_some.2 (.inr ⟨e, hsrecv, rfl⟩)⟩)

end

/-- A string arrives if and only if it is not empty. A connection that is closed in a frame is noticed if and only if no
call was interrupted before. -/
theorem framing_iff {s rest : Bytes} {k : ℕ} {c : SendEnd} {r cut : RecvEnd} (hs : s.length < 2 ^ 64)
    (hc : c.Interrupted) (hr : r.Interrupted) (h : arrived r.arrivals = frame s ++ rest) (hcut : cut.Interrupted)
    (hk : k < (frame s).length) (hclosed : arrived cut.arrivals = (frame s).take k) :
    (Frames s c r rest ↔ s ≠ []) ∧ (cut.Throws ↔ ¬ cut.Stale) :=
  ⟨⟨ne_nil_of_frames, fun hne => frames_of_ne_nil hs hne hc hr h⟩, throws_iff hs hcut hk hclosed⟩

/-- A string of one byte, in pieces and with an interrupt; and the same, cut off. -/
theorem framing_iff_one :
    (Frames [7] ⟨0, [.moves 2, .fails EINTR], []⟩
        ⟨0, [.piece 1 [0, 0], .fails EINTR, .piece 0 [0, 0, 0, 0, 7, 9]]⟩ [9] ↔ [(7 : UInt8)] ≠ []) ∧
      (RecvEnd.Throws ⟨0, [.piece 1 [0, 0]]⟩ ↔ ¬ RecvEnd.Stale ⟨0, [.piece 1 [0, 0]]⟩) :=
  framing_iff (k := 3) (by decide) (by simp [SendEnd.Interrupted]) (by simp [RecvEnd.Interrupted]) (by decide)
    (by simp [RecvEnd.Interrupted]) (by decide) (by decide)

/-- An empty string is not sent without an exception, and after an interrupt it is not noticed that the connection is
closed. -/
theorem not_framing :
    ¬ (∀ (s rest : Bytes) (c : SendEnd) (r : RecvEnd), s.length < 2 ^ 64 → c.Interrupted → r.Interrupted →
        arrived r.arrivals = frame s ++ rest → Frames s c r rest) ∧
      ¬ ∀ (s : Bytes) (k : ℕ) (r : RecvEnd), s.length < 2 ^ 64 → r.Interrupted → k < (frame s).length →
        arrived r.arrivals = (frame s).take k → r.Throws := by
  refine ⟨fun h => ?_, fun h => ?_⟩
  · refine ne_nil_of_frames
      (h [] [] ⟨0, [], []⟩ ⟨0, [.piece 0 [0, 0, 0, 0, 0, 0, 0]]⟩ (by decide) ?_ ?_ (by decide)) rfl
    · simp [SendEnd.Interrupted]
    · simp [RecvEnd.Interrupted]
  · have hinterrupted : RecvEnd.Interrupted ⟨0, [.piece 1 [0, 0], .fails EINTR]⟩ := by simp [RecvEnd.Interrupted]
    have hthrows := h [7] 3 ⟨0, [.piece 1 [0, 0], .fails EINTR]⟩ (by decide) hinterrupted (by decide) (by decide)
    refine (throws_iff (s := [7]) (k := 3) (by decide) hinterrupted (by decide) (by decide)).1 hthrows ?_
    exact .inr (by simp)

end Hobbes.Hog
