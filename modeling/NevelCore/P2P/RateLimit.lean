import NevelCore.Foundations.FixedWindow
import NevelCore.P2P.Message

/-!
# The rate limit of peers

`allowPeerMessage` counts the calls for each peer in fixed windows, allowed or not, and allows those
whose number in the window is within the limit. The counter is a machine integer, and for one peer
it is the rank of the call in its window (`filter_answers`), wrapped.

So the calls of a window that are allowed are those of the first ranks, up to the limit, as long as
the counter does not wrap, and beyond that also those for which it is negative
(`countP_window`, `countP_range_eq`, `lt_countP_range`). `rateLimited_iff` says that the limiter
bounds bursts exactly where no window has so many calls.
-/

set_option autoImplicit false
set_option relaxedAutoImplicit false

namespace NevelCore.P2P

open Foundations FixedWindow

/-- A call of `allowPeerMessage`. -/
structure Call where
  id : String
  now : ℤ

/-- A call with its answer, and the start of the window of the peer after it. -/
structure Answer where
  id : String
  now : ℤ
  allowed : Bool
  windowStart : ℤ

namespace Node

def answer (n : Node) (call : Call) : Answer where
  id := call.id
  now := call.now
  allowed := (n.allowPeerMessage call.id call.now).1
  windowStart := ((n.allowPeerMessage call.id call.now).2.stats call.id).windowStart

@[simp] theorem id_answer (n : Node) (call : Call) : (n.answer call).id = call.id := rfl

/-- The answers to calls one after the other. -/
def answers : Node → List Call → List Answer
  | _, [] => []
  | n, call :: calls => n.answer call :: answers (n.allowPeerMessage call.id call.now).2 calls

theorem map_id_answers (n : Node) (calls : List Call) :
    (n.answers calls).map Answer.id = calls.map Call.id := by
  induction calls generalizing n with
  | nil => rfl
  | cons call calls ih => rw [answers, List.map_cons, List.map_cons, ih, id_answer]

end Node

/-- The times of the calls for a peer. -/
def callTimes (peer : String) (calls : List Call) : List ℤ :=
  (calls.filter (·.id = peer)).map Call.now

/-! ### One peer -/

/-- The count of a peer after a call with a mark: the rank, wrapped. -/
def statsOf (a : Mark) : PeerStats := ⟨a.start, Int64.ofNat a.rank⟩

/-- The count of a peer is that of its last call. -/
def Counts (st : PeerStats) : Option Mark → Prop
  | none => st.windowStart = 0
  | some last => st = statsOf last ∧ last.start ≠ 0

/-- The answer to a call with a mark. -/
def answerOf (peer : String) (limit : Int64) (a : Mark) : Answer where
  id := peer
  now := a.time
  allowed := Int64.ofNat a.rank ≤ limit
  windowStart := a.start

section OnePeer

variable {n : Node} {peer : String} {last : Option Mark} {now : ℤ}

/-- One call counts as the next mark does. -/
theorem allowPeerMessage_eq (hcounts : Counts (n.stats peer) last) (now : ℤ) :
    n.allowPeerMessage peer now =
      ((answerOf peer n.cfg.peerRateLimit (next n.cfg.peerRateWindow last now)).allowed,
        { n with
          stats := Function.update n.stats peer
            (statsOf (next n.cfg.peerRateWindow last now)) }) := by
  rw [Node.allowPeerMessage]
  cases last with
  | none =>
    have hzero : (n.stats peer).windowStart = 0 := hcounts
    rw [if_pos (Or.inl hzero)]
    rfl
  | some l =>
    obtain ⟨hstats, hne⟩ := hcounts
    rw [hstats, statsOf]
    dsimp only
    rcases next_some_cases n.cfg.peerRateWindow l now with ⟨hopens, heq⟩ | ⟨hopen, heq⟩
    · rw [if_pos (Or.inr (by omega)), heq]
      rfl
    · rw [if_neg (not_or.mpr ⟨hne, by omega⟩), heq, statsOf, answerOf]
      dsimp only
      rw [Int64.ofNat_add]
      rfl

theorem counts_next (hcounts : Counts (n.stats peer) last) (hnow : now ≠ 0) (length : ℤ) :
    Counts (statsOf (next length last now)) (some (next length last now)) := by
  refine ⟨rfl, ?_⟩
  cases last with
  | none => exact hnow
  | some l =>
    rcases next_some_cases length l now with ⟨-, heq⟩ | ⟨-, heq⟩
    · rwa [heq]
    · rw [heq]
      exact hcounts.2

/-- The answers for a peer are those of its marks, whatever the calls for other peers are. -/
theorem filter_answers {calls : List Call} (hcounts : Counts (n.stats peer) last)
    (hcalls : ∀ call ∈ calls, call.now ≠ 0) :
    (n.answers calls).filter (·.id = peer) =
      (marksFrom n.cfg.peerRateWindow last (callTimes peer calls)).map
        (answerOf peer n.cfg.peerRateLimit) := by
  induction calls generalizing n last with
  | nil => rfl
  | cons call calls ih =>
    obtain ⟨hnow, hcalls⟩ := List.forall_mem_cons.mp hcalls
    rw [Node.answers]
    by_cases hid : call.id = peer
    · subst hid
      have heq := allowPeerMessage_eq hcounts call.now
      have hstats : (n.allowPeerMessage call.id call.now).2.stats call.id =
          statsOf (next n.cfg.peerRateWindow last call.now) := by
        rw [heq]
        exact Function.update_self call.id _ n.stats
      have hanswer : n.answer call =
          answerOf call.id n.cfg.peerRateLimit (next n.cfg.peerRateWindow last call.now) := by
        rw [Node.answer, hstats, heq, answerOf, time_next]
        rfl
      have hnext := ih (n := (n.allowPeerMessage call.id call.now).2)
        (hstats ▸ counts_next hcounts hnow _) hcalls
      rw [List.filter_cons_of_pos (by simp), hnext, hanswer, callTimes, callTimes,
        List.filter_cons_of_pos (by simp), List.map_cons, marksFrom, List.map_cons]
      rfl
    · have hstats : (n.allowPeerMessage call.id call.now).2.stats peer = n.stats peer :=
        Function.update_of_ne (Ne.symm hid) _ _
      have hcounts' : Counts ((n.allowPeerMessage call.id call.now).2.stats peer) last := by
        rwa [hstats]
      have hnext := ih hcounts' hcalls
      rw [List.filter_cons_of_neg (by rwa [Node.id_answer, decide_eq_true_eq]), hnext, callTimes,
        callTimes, List.filter_cons_of_neg (by rwa [decide_eq_true_eq])]
      rfl

end OnePeer

/-! ### Allowed ranks -/

theorem countP_range_of_le (count limit : ℕ) :
    (List.range' 1 count).countP (· ≤ limit) = min count limit := by
  induction count with
  | zero => exact (Nat.zero_min _).symm
  | succ count ih =>
    rw [List.range'_concat, List.countP_append, ih, List.countP_singleton]
    split_ifs with h
    · rw [decide_eq_true_eq] at h
      omega
    · rw [decide_eq_true_eq] at h
      omega

section Ranks

variable {limit : Int64} {count : ℕ}

/-- While the counter does not wrap, it is within the limit for the first ranks. -/
theorem countP_range_eq (hlimit : 0 < limit) (hcount : count < 2 ^ 63) :
    (List.range' 1 count).countP (fun rank ↦ Int64.ofNat rank ≤ limit) =
      min count limit.toInt.toNat := by
  rw [← countP_range_of_le]
  refine List.countP_congr fun rank hrank ↦ ?_
  have hlt : rank < 2 ^ 63 := by
    have hmem := (List.mem_range'_1.mp hrank).2
    omega
  have hpos : 0 < limit.toInt := Int64.lt_iff_toInt_lt.mp hlimit
  rw [decide_eq_true_eq, decide_eq_true_eq, Int64.le_iff_toInt_le, Int64.toInt_ofNat_of_lt hlt]
  omega

/-- The call at which the counter wraps is allowed, beyond the limit. -/
theorem lt_countP_range (hlimit : 0 < limit) (hcount : 2 ^ 63 ≤ count) :
    limit.toInt < (List.range' 1 count).countP (fun rank ↦ Int64.ofNat rank ≤ limit) := by
  have hlt : limit.toInt < 2 ^ 63 := limit.toInt_lt
  have hpos : 0 < limit.toInt := Int64.lt_iff_toInt_lt.mp hlimit
  obtain ⟨half, hhalf⟩ : ∃ half, half + 1 = 2 ^ 63 := ⟨2 ^ 63 - 1, rfl⟩
  obtain ⟨more, rfl⟩ : ∃ more, count = half + (more + 1) := ⟨count - 2 ^ 63, by omega⟩
  have hbelow := countP_range_eq hlimit (show half < 2 ^ 63 by omega)
  have hwraps : Int64.ofNat (1 + half) ≤ limit := by
    rw [Nat.add_comm, hhalf, Int64.le_iff_toInt_le]
    exact limit.le_toInt
  rw [← List.range'_append_1, List.countP_append, hbelow, List.range'_succ,
    List.countP_cons_of_pos (by rwa [decide_eq_true_eq])]
  omega

end Ranks

/-! ### Bursts -/

/-- The answers for a peer. -/
def peerAnswers (cfg : Config) (calls : List Call) (peer : String) : List Answer :=
  ((newNode cfg).answers calls).filter (·.id = peer)

/-- What the limiter should do for a peer: in any time interval of the length of a window it allows
at most twice the limit, and in each window at most the limit. It allows a call if there were fewer
before it in its window than the limit, and does not look at calls for others. -/
structure RateLimited (cfg : Config) (calls : List Call) (peer : String) : Prop where
  interval : ∀ t, (peerAnswers cfg calls peer).countP
    (fun a ↦ a.allowed ∧ t ≤ a.now ∧ a.now < t + cfg.peerRateWindow) ≤ 2 * cfg.peerRateLimit.toInt
  window : ∀ start, (peerAnswers cfg calls peer).countP
    (fun a ↦ a.allowed ∧ a.windowStart = start) ≤ cfg.peerRateLimit.toInt
  served : ∀ front a back, peerAnswers cfg calls peer = front ++ a :: back →
    front.countP (·.windowStart = a.windowStart) < cfg.peerRateLimit.toInt → a.allowed = true
  independent : peerAnswers cfg calls peer = (newNode cfg).answers (calls.filter (·.id = peer))

theorem pairwise_callTimes {calls : List Call} (hcalls : (calls.map Call.now).Pairwise (· ≤ ·))
    (peer : String) : (callTimes peer calls).Pairwise (· ≤ ·) :=
  hcalls.sublist (List.filter_sublist.map Call.now)

section Bursts

variable {cfg : Config} {calls : List Call} {peer : String}

section Nonzero

variable (hlimit : 0 < cfg.peerRateLimit) (hwindow : 0 < cfg.peerRateWindow)
  (hcalls : ∀ call ∈ calls, call.now ≠ 0)

include hlimit hwindow hcalls

theorem peerAnswers_eq :
    peerAnswers cfg calls peer =
      (marks cfg.peerRateWindow (callTimes peer calls)).map (answerOf peer cfg.peerRateLimit) := by
  have hcounts : Counts ((newNode cfg).stats peer) none := rfl
  have hanswers := filter_answers hcounts hcalls
  have hcfgLimit : (newNode cfg).cfg.peerRateLimit = cfg.peerRateLimit :=
    if_neg (Int64.not_le.mpr hlimit)
  have hcfgWindow : (newNode cfg).cfg.peerRateWindow = cfg.peerRateWindow :=
    if_neg (Int.not_le.mpr hwindow)
  rwa [hcfgLimit, hcfgWindow] at hanswers

/-- The answers for a peer are those there would be without the calls for others. -/
theorem peerAnswers_eq_answers :
    peerAnswers cfg calls peer = (newNode cfg).answers (calls.filter (·.id = peer)) := by
  have hown : (newNode cfg).answers (calls.filter (·.id = peer)) =
      peerAnswers cfg (calls.filter (·.id = peer)) peer := by
    refine (List.filter_eq_self.mpr fun a ha ↦ ?_).symm
    have hid : a.id ∈ ((newNode cfg).answers (calls.filter (·.id = peer))).map Answer.id :=
      List.mem_map_of_mem ha
    rw [Node.map_id_answers] at hid
    obtain ⟨call, hcall, hid⟩ := List.mem_map.mp hid
    rw [← hid]
    exact (List.mem_filter.mp hcall).2
  have htimes : callTimes peer (calls.filter (·.id = peer)) = callTimes peer calls := by
    rw [callTimes, List.filter_filter]
    simp only [Bool.and_self]
    rfl
  rw [hown, peerAnswers_eq hlimit hwindow hcalls, peerAnswers_eq hlimit hwindow fun call hcall ↦
    hcalls call (List.mem_of_mem_filter hcall), htimes]

section Sorted

variable (hsorted : (calls.map Call.now).Pairwise (· ≤ ·))

include hsorted

/-- The allowed calls of a window are those whose rank, wrapped, is within the limit. -/
theorem countP_window (peer : String) (start : ℤ) :
    (peerAnswers cfg calls peer).countP (fun a ↦ a.allowed ∧ a.windowStart = start) =
      (List.range' 1 ((peerAnswers cfg calls peer).countP (·.windowStart = start))).countP
        (fun rank ↦ Int64.ofNat rank ≤ cfg.peerRateLimit) := by
  rw [peerAnswers_eq hlimit hwindow hcalls, List.countP_map, List.countP_map]
  have hranks := ranks_marks hwindow (pairwise_callTimes hsorted peer) start
  change _ = (List.range' 1 ((marks cfg.peerRateWindow (callTimes peer calls)).countP
    (·.start = start))).countP _
  rw [← hranks, List.countP_map, List.countP_filter]
  refine List.countP_congr fun a _ ↦ ?_
  simp only [Function.comp_apply, answerOf, decide_eq_true_eq, Bool.and_eq_true]

theorem countP_interval
    (hbound : ∀ start, (peerAnswers cfg calls peer).countP
      (fun a ↦ a.allowed ∧ a.windowStart = start) ≤ cfg.peerRateLimit.toInt) (t : ℤ) :
    (peerAnswers cfg calls peer).countP
      (fun a ↦ a.allowed ∧ t ≤ a.now ∧ a.now < t + cfg.peerRateWindow) ≤
        2 * cfg.peerRateLimit.toInt := by
  have hpos : 0 < cfg.peerRateLimit.toInt := Int64.lt_iff_toInt_lt.mp hlimit
  rw [peerAnswers_eq hlimit hwindow hcalls] at hbound ⊢
  have hwindows : ∀ start, (marks cfg.peerRateWindow (callTimes peer calls)).countP (fun a ↦
      (answerOf peer cfg.peerRateLimit a).allowed ∧ a.start = start) ≤
        cfg.peerRateLimit.toInt.toNat := fun start ↦ by
    have hstart := hbound start
    rw [List.countP_map] at hstart
    exact (Int.le_toNat (Int.le_of_lt hpos)).mpr hstart
  have hinterval := countP_interval_le hwindow (pairwise_callTimes hsorted peer) hwindows t
  rw [List.countP_map]
  have hcount : (marks cfg.peerRateWindow (callTimes peer calls)).countP ((fun a : Answer ↦
      a.allowed ∧ t ≤ a.now ∧ a.now < t + cfg.peerRateWindow) ∘ answerOf peer cfg.peerRateLimit) ≤
        2 * cfg.peerRateLimit.toInt.toNat := hinterval
  omega

/-- A call with few enough others before it in its window is allowed. -/
theorem allowed_of_countP_lt (front : List Answer) (a : Answer) (back : List Answer)
    (hanswers : peerAnswers cfg calls peer = front ++ a :: back)
    (hfew : front.countP (·.windowStart = a.windowStart) < cfg.peerRateLimit.toInt) :
    a.allowed = true := by
  rw [peerAnswers_eq hlimit hwindow hcalls] at hanswers
  obtain ⟨before, after, hmarks, rfl, hafter⟩ := List.map_eq_append_iff.mp hanswers
  obtain ⟨mark, later, rfl, rfl, -⟩ := List.map_eq_cons_iff.mp hafter
  have hrank := rank_eq hwindow (pairwise_callTimes hsorted peer) hmarks
  have hmax : cfg.peerRateLimit.toInt < 2 ^ 63 := cfg.peerRateLimit.toInt_lt
  rw [List.countP_map] at hfew
  have hbefore : ((before.countP (·.start = mark.start) : ℕ) : ℤ) < cfg.peerRateLimit.toInt := hfew
  refine decide_eq_true (Int64.le_iff_toInt_le.mpr ?_)
  rw [Int64.toInt_ofNat_of_lt (by omega)]
  omega

end Sorted

end Nonzero

/-- The limiter bounds the bursts of a peer if and only if there are fewer than `2 ^ 63` calls for
it in each window. -/
theorem rateLimited_iff (hlimit : 0 < cfg.peerRateLimit) (hwindow : 0 < cfg.peerRateWindow)
    (hcalls : ∀ call ∈ calls, call.now ≠ 0) (hsorted : (calls.map Call.now).Pairwise (· ≤ ·))
    (peer : String) :
    RateLimited cfg calls peer ↔
      ∀ start, (peerAnswers cfg calls peer).countP (·.windowStart = start) < 2 ^ 63 := by
  have hpos : 0 < cfg.peerRateLimit.toInt := Int64.lt_iff_toInt_lt.mp hlimit
  have hcount := countP_window hlimit hwindow hcalls hsorted peer
  constructor
  · intro hlimited start
    by_contra hwraps
    have hmore := lt_countP_range hlimit (Nat.not_lt.mp hwraps)
    rw [← hcount start] at hmore
    exact absurd (hlimited.window start) (Int.not_le.mpr hmore)
  · intro hfew
    have hbound : ∀ start, (peerAnswers cfg calls peer).countP
        (fun a ↦ a.allowed ∧ a.windowStart = start) ≤ cfg.peerRateLimit.toInt := fun start ↦ by
      rw [hcount start, countP_range_eq hlimit (hfew start)]
      omega
    refine ⟨countP_interval hlimit hwindow hcalls hsorted hbound, hbound, ?_, ?_⟩
    · exact allowed_of_countP_lt hlimit hwindow hcalls hsorted
    · exact peerAnswers_eq_answers hlimit hwindow hcalls

end Bursts

namespace Sample

/-- A node that allows one message in a window of a minute. -/
def oneMessage : Config := { cfg with peerRateLimit := 1, peerRateWindow := 60 * 1000000000 }

/-- Calls at the same time, all for one peer. -/
def burst (count : ℕ) : List Call := List.replicate count ⟨"10.0.0.1:1000", 1⟩

theorem now_burst {count : ℕ} : ∀ call ∈ burst count, call.now ≠ 0 := by
  intro call hcall
  rw [List.eq_of_mem_replicate hcall]
  decide

theorem pairwise_burst (count : ℕ) : ((burst count).map Call.now).Pairwise (· ≤ ·) := by
  rw [burst, List.map_replicate]
  exact List.pairwise_replicate.mpr (.inr (le_refl _))

theorem callTimes_burst (count : ℕ) :
    callTimes "10.0.0.1:1000" (burst count) = List.replicate count 1 := by
  rw [callTimes, burst, List.filter_replicate_of_pos (by decide), List.map_replicate]

theorem peerAnswers_burst (count : ℕ) :
    peerAnswers oneMessage (burst count) "10.0.0.1:1000" =
      (marks oneMessage.peerRateWindow (List.replicate count 1)).map
        (answerOf "10.0.0.1:1000" oneMessage.peerRateLimit) := by
  rw [peerAnswers_eq (by decide) (by decide) now_burst, callTimes_burst]

theorem length_peerAnswers_burst (count : ℕ) :
    (peerAnswers oneMessage (burst count) "10.0.0.1:1000").length = count := by
  have htimes := congrArg List.length
    (map_time_marks oneMessage.peerRateWindow (List.replicate count 1))
  rwa [List.length_map, List.length_replicate, ← List.length_map, ← peerAnswers_burst] at htimes

/-- All calls of a burst are in the window that its first call opens. -/
theorem countP_burst (count : ℕ) :
    (peerAnswers oneMessage (burst count) "10.0.0.1:1000").countP (·.windowStart = 1) = count := by
  refine Eq.trans ?_ (length_peerAnswers_burst count)
  refine List.countP_eq_length.mpr fun a ha ↦ ?_
  rw [peerAnswers_burst] at ha
  obtain ⟨mark, hmark, rfl⟩ := List.mem_map.mp ha
  exact decide_eq_true (start_marks_replicate 1 count mark hmark)

end Sample

theorem rateLimited_three :
    RateLimited Sample.oneMessage (Sample.burst 3) "10.0.0.1:1000" ∧
      (peerAnswers Sample.oneMessage (Sample.burst 3) "10.0.0.1:1000").map Answer.allowed =
        [true, false, false] := by
  have hfew : ∀ start, (peerAnswers Sample.oneMessage (Sample.burst 3) "10.0.0.1:1000").countP
      (·.windowStart = start) < 2 ^ 63 := fun start ↦ by
    have hle := List.countP_le_length (p := fun a ↦ a.windowStart = start)
      (l := peerAnswers Sample.oneMessage (Sample.burst 3) "10.0.0.1:1000")
    rw [Sample.length_peerAnswers_burst] at hle
    omega
  exact ⟨(rateLimited_iff (by decide) (by decide) Sample.now_burst (Sample.pairwise_burst 3)
    "10.0.0.1:1000").mpr hfew, by decide⟩

/-- After `2 ^ 63` calls in one window the counter wraps, and a call is allowed again. -/
theorem rateLimited_wraps :
    0 < Sample.oneMessage.peerRateLimit ∧ 0 < Sample.oneMessage.peerRateWindow ∧
      (∀ call ∈ Sample.burst (2 ^ 63), call.now ≠ 0) ∧
      ((Sample.burst (2 ^ 63)).map Call.now).Pairwise (· ≤ ·) ∧
      Sample.oneMessage.peerRateLimit.toInt <
        (peerAnswers Sample.oneMessage (Sample.burst (2 ^ 63)) "10.0.0.1:1000").countP
          (fun a ↦ a.allowed ∧ a.windowStart = 1) ∧
      ¬ RateLimited Sample.oneMessage (Sample.burst (2 ^ 63)) "10.0.0.1:1000" := by
  have hmany : Sample.oneMessage.peerRateLimit.toInt <
      (peerAnswers Sample.oneMessage (Sample.burst (2 ^ 63)) "10.0.0.1:1000").countP
        (fun a ↦ a.allowed ∧ a.windowStart = 1) := by
    rw [countP_window (by decide) (by decide) Sample.now_burst (Sample.pairwise_burst _),
      Sample.countP_burst]
    exact lt_countP_range (by decide) (le_refl _)
  exact ⟨by decide, by decide, Sample.now_burst, Sample.pairwise_burst _, hmany,
    fun h ↦ absurd (h.window 1) (Int.not_le.mpr hmany)⟩

end NevelCore.P2P
