import Detent.Source.Coalescer

/-!
# The records of rejected credentials

Two records of one client are a window apart, and the second one says how many of the
client's rejections were held back between them; unless the client was dropped in between,
for another one that a full table had no room for, when nearly as many other clients as it
holds had been logged since the first record (`records_spaced`). This holds in every run
of calls, whatever the clock does and in whatever order a map is gone through.
-/
namespace Detent.Guarantees.RejectionRecords
open Lib Lib.Keyed
open Source.Coalescer
open Source.RateLimit (saturatingSucc)

/-- A call of a run, and what it answered. -/
structure Answer where
  client : IpAddr
  now : Nat
  logged : Option Nat

def answerOf (clients : Clients) (rejection : Rejection) : Answer :=
  ⟨rejection.client, rejection.now, (admitRejection clients rejection).1⟩

/-- The table after some calls. -/
def after (clients : Clients) (rejections : List Rejection) : Clients :=
  rejections.foldl (fun clients rejection => (admitRejection clients rejection).2) clients

def answers : Clients → List Rejection → List Answer
  | _, [] => []
  | clients, rejection :: rest =>
    answerOf clients rejection :: answers (admitRejection clients rejection).2 rest

theorem after_append (clients : Clients) (before rest : List Rejection) :
    after clients (before ++ rest) = after (after clients before) rest :=
  List.foldl_append

/-- One entry for each client, no more than the table holds, each as old as a record. -/
structure Sound (past : List Answer) (clients : Clients) : Prop where
  unique : Unique clients
  bounded : clients.length ≤ maxClients
  recorded : ∀ x ∈ clients, ∃ held, ⟨x.1, x.2.loggedAt, some held⟩ ∈ past

section Table

variable {past more : List Answer} {clients : Clients} {rejection : Rejection} {client : IpAddr}
  {entry : Entry}

theorem mem_set {x : IpAddr × Entry} (h : x ∈ Keyed.set clients client entry) :
    x = (client, entry) ∨ x ∈ clients :=
  (List.mem_cons.mp h).imp_right (fun hmem => List.mem_of_mem_filter hmem)

theorem makeRoom_sublist : (makeRoom clients rejection).Sublist clients := by
  unfold makeRoom
  split
  · split
    · exact List.filter_sublist
    · exact .refl _
  · exact .refl _

theorem makeRoom_length (h : clients.length ≤ maxClients) :
    (makeRoom clients rejection).length < maxClients := by
  unfold makeRoom
  split
  · rename_i hfull
    split
    · rename_i oldest holdest
      exact lt_of_lt_of_le (length_erase_lt (Iteration.least_mem holdest)) h
    · rename_i hnone
      rw [Iteration.least_eq_none.mp hnone]
      decide
  · omega

variable (hvalue : value clients rejection.client = some entry)
include hvalue

/-- Within its window a tracked client is counted on. -/
theorem admitRejection_early (hearly : rejection.now - entry.loggedAt < window) :
    admitRejection clients rejection = (none, Keyed.set clients rejection.client
      { entry with suppressed := saturatingSucc entry.suppressed }) := by
  rw [admitRejection, hvalue]
  exact if_pos hearly

/-- From the end of its window on it is logged and begins again. -/
theorem admitRejection_late (hlate : window ≤ rejection.now - entry.loggedAt) :
    admitRejection clients rejection = (some entry.suppressed,
      Keyed.set clients rejection.client { loggedAt := rejection.now, suppressed := 0 }) := by
  rw [admitRejection, hvalue]
  exact if_neg (Nat.not_lt_of_le hlate)

theorem late_of_logged (hlogged : (admitRejection clients rejection).1.isSome) :
    window ≤ rejection.now - entry.loggedAt := by
  by_contra hearly
  rw [admitRejection_early hvalue (Nat.lt_of_not_le hearly)] at hlogged
  cases hlogged

omit hvalue

theorem admitRejection_new (hvalue : value clients rejection.client = none) :
    admitRejection clients rejection =
      (some 0, Keyed.set (makeRoom clients rejection) rejection.client
        { loggedAt := rejection.now, suppressed := 0 }) := by
  rw [admitRejection, hvalue]

theorem admitRejection_sound (rejection : Rejection) (h : Sound past clients) :
    Sound (past ++ [answerOf clients rejection]) (admitRejection clients rejection).2 := by
  have hold : ∀ x ∈ clients, ∃ held,
      ⟨x.1, x.2.loggedAt, some held⟩ ∈ past ++ [answerOf clients rejection] := by
    intro x hx
    obtain ⟨held, hmem⟩ := h.recorded x hx
    exact ⟨held, List.mem_append_left _ hmem⟩
  have hnew : ∀ held, (admitRejection clients rejection).1 = some held →
      ⟨rejection.client, rejection.now, some held⟩ ∈ past ++ [answerOf clients rejection] := by
    intro held hlogged
    rw [answerOf, hlogged]
    simp
  cases hvalue : value clients rejection.client with
  | some entry =>
    rcases Nat.lt_or_ge (rejection.now - entry.loggedAt) window with hearly | hlate
    · rw [admitRejection_early hvalue hearly] at hnew ⊢
      refine ⟨unique_set h.unique _ _, (length_set_of_value hvalue).trans h.bounded, ?_⟩
      intro x hx
      rcases mem_set hx with rfl | hx
      · exact hold (rejection.client, entry) (mem_of_value hvalue)
      · exact hold x hx
    · rw [admitRejection_late hvalue hlate] at hnew ⊢
      refine ⟨unique_set h.unique _ _, (length_set_of_value hvalue).trans h.bounded, ?_⟩
      intro x hx
      rcases mem_set hx with rfl | hx
      · exact ⟨_, hnew _ rfl⟩
      · exact hold x hx
  | none =>
    rw [admitRejection_new hvalue] at hnew ⊢
    refine ⟨unique_set (h.unique.sublist makeRoom_sublist) _ _, ?_, ?_⟩
    · exact length_set_le.trans (makeRoom_length h.bounded)
    · intro x hx
      rcases mem_set hx with rfl | hx
      · exact ⟨_, hnew _ rfl⟩
      · exact hold x (makeRoom_sublist.subset hx)

theorem after_sound (rejections : List Rejection) (h : Sound past clients) :
    Sound (past ++ answers clients rejections) (after clients rejections) := by
  induction rejections generalizing past clients with
  | nil => exact (List.append_nil past).symm ▸ h
  | cons rejection rest ih =>
    have hrest := ih (admitRejection_sound rejection h)
    rwa [List.append_assoc] at hrest

/-- Of the clients that a table holds all but `client` have a record since `time`. -/
def Crowded (client : IpAddr) (time : Nat) (past : List Answer) : Prop :=
  ∃ others : List IpAddr, others.Nodup ∧ others.length + 1 = maxClients ∧ client ∉ others ∧
    ∀ other ∈ others, ∃ record ∈ past, record.client = other ∧ record.logged.isSome ∧
      time ≤ record.now

/-- A call drops the entry of `client`. -/
def Drops (clients : Clients) (rejection : Rejection) (client : IpAddr) : Prop :=
  (value clients client).isSome ∧ value (admitRejection clients rejection).2 client = none

/-- The client that a full table drops was logged longest ago. -/
theorem dropped_crowded (rejection : Rejection) (h : Sound past clients)
    (hfull : maxClients ≤ clients.length)
    (holdest : rejection.iteration.least Entry.loggedAt clients = some (client, entry)) :
    Crowded client entry.loggedAt past := by
  have hmem := Iteration.least_mem holdest
  refine ⟨(erase clients client).map Prod.fst, h.unique.filter _, ?_, ?_, ?_⟩
  · rw [List.length_map, h.unique.length_erase hmem]
    exact Nat.le_antisymm h.bounded hfull
  · intro hin
    obtain ⟨x, hx, hkey⟩ := List.mem_map.mp hin
    simpa [hkey] using (List.mem_filter.mp hx).2
  · intro other hother
    obtain ⟨x, hx, rfl⟩ := List.mem_map.mp hother
    have hin := List.mem_of_mem_filter hx
    obtain ⟨held, hrecord⟩ := h.recorded x hin
    exact ⟨_, hrecord, rfl, rfl, Iteration.least_le holdest x hin⟩

/-- Another client's call leaves an entry alone, or drops it from a crowded table. -/
theorem admitRejection_other (h : Sound past clients) (hvalue : value clients client = some entry)
    (hother : client ≠ rejection.client) :
    value (admitRejection clients rejection).2 client = some entry ∨
      Drops clients rejection client ∧ Crowded client entry.loggedAt past := by
  cases hown : value clients rejection.client with
  | some own =>
    refine .inl ?_
    rcases Nat.lt_or_ge (rejection.now - own.loggedAt) window with hearly | hlate
    · rwa [admitRejection_early hown hearly, value_set_of_ne hother]
    · rwa [admitRejection_late hown hlate, value_set_of_ne hother]
  | none =>
    have hafter : value (admitRejection clients rejection).2 client =
        value (makeRoom clients rejection) client := by
      rw [admitRejection_new hown, value_set_of_ne hother]
    unfold Drops
    rw [hafter]
    unfold makeRoom
    split
    · rename_i hfull
      split
      · rename_i oldest holdest
        by_cases hsame : client = oldest.1
        · subst hsame
          have hentry : oldest.2 = entry := by
            have hfound := h.unique.value_of_mem (Iteration.least_mem holdest)
            exact Option.some.inj (hfound.symm.trans hvalue)
          refine .inr ⟨⟨by rw [hvalue]; rfl, value_erase _ _⟩, ?_⟩
          exact hentry ▸ dropped_crowded rejection h hfull holdest
        · exact .inl ((value_erase_of_ne hsame).trans hvalue)
      · exact .inl hvalue
    · exact .inl hvalue

/-- `u32::MAX`. -/
def most : Nat := 4294967295

/-- One of some calls drops the entry of `client`, when the table has been crowded since `time`. -/
def DroppedAmong (clients : Clients) (rejections : List Rejection) (client : IpAddr) (time : Nat)
    (past : List Answer) : Prop :=
  ∃ earlier dropping later, rejections = earlier ++ dropping :: later ∧
    Drops (after clients earlier) dropping client ∧
      Crowded client time (past ++ answers clients earlier)

theorem DroppedAmong.cons {rejections : List Rejection} {time : Nat}
    (h : DroppedAmong (admitRejection clients rejection).2 rejections client time
      (past ++ [answerOf clients rejection])) :
    DroppedAmong clients (rejection :: rejections) client time past := by
  obtain ⟨earlier, dropping, later, rfl, hdrops, hcrowded⟩ := h
  refine ⟨rejection :: earlier, dropping, later, rfl, hdrops, ?_⟩
  rwa [List.append_assoc] at hcrowded

/-- While a client is not logged, its rejections are counted, or it is dropped. -/
theorem quiet_run {rejections : List Rejection} {time : Nat} (count : Nat) (h : Sound past clients)
    (hvalue : value clients client = some ⟨time, min count most⟩)
    (hquiet : ∀ answer ∈ answers clients rejections,
      answer.client = client → answer.logged = none) :
    value (after clients rejections) client = some ⟨time,
        min (count + rejections.countP (fun rejection => rejection.client = client)) most⟩ ∨
      DroppedAmong clients rejections client time past := by
  induction rejections generalizing past clients count with
  | nil => exact .inl hvalue
  | cons rejection rest ih =>
    have hsound := admitRejection_sound rejection h
    have hrest : ∀ answer ∈ answers (admitRejection clients rejection).2 rest,
        answer.client = client → answer.logged = none :=
      fun answer hmem => hquiet answer (List.mem_cons_of_mem _ hmem)
    by_cases hown : rejection.client = client
    · subst hown
      have hunlogged : (admitRejection clients rejection).1 = none :=
        hquiet _ List.mem_cons_self rfl
      rcases Nat.lt_or_ge (rejection.now - time) window with hearly | hlate
      · have hnext : value (admitRejection clients rejection).2 rejection.client =
            some ⟨time, min (count + 1) most⟩ := by
          have hcount : saturatingSucc (min count most) = min (count + 1) most := by
            unfold saturatingSucc most
            omega
          rw [admitRejection_early hvalue hearly, value_set_self, hcount]
        rw [List.countP_cons_of_pos (by simp), Nat.add_comm (List.countP _ rest), ← Nat.add_assoc]
        exact (ih (count + 1) hsound hnext hrest).imp_right DroppedAmong.cons
      · rw [admitRejection_late hvalue hlate] at hunlogged
        cases hunlogged
    · rw [List.countP_cons_of_neg (by simpa using hown)]
      rcases admitRejection_other h hvalue (fun heq => hown heq.symm) with hkept | ⟨hdrops, hcrowded⟩
      · exact (ih count hsound hkept hrest).imp_right DroppedAmong.cons
      · refine .inr ⟨[], rejection, rest, rfl, hdrops, ?_⟩
        rwa [answers, List.append_nil]

end Table

/-- A client that is logged has an entry of that time, with nothing held back. -/
theorem logged_value {clients : Clients} {rejection : Rejection}
    (hlogged : (admitRejection clients rejection).1.isSome) :
    value (admitRejection clients rejection).2 rejection.client = some ⟨rejection.now, 0⟩ := by
  cases hvalue : value clients rejection.client with
  | some entry =>
    rw [admitRejection_late hvalue (late_of_logged hvalue hlogged), value_set_self]
  | none => rw [admitRejection_new hvalue, value_set_self]

/-- In every run, two records of a client with none of it in between are a window apart, and
the second carries the number of rejections between them; or the client was dropped in between,
from a crowded table. -/
theorem records_spaced (before between : List Rejection) (first second : Rejection)
    (hclient : second.client = first.client)
    (hfirst : (admitRejection (after [] before) first).1.isSome)
    (hquiet : ∀ answer ∈ answers (after [] (before ++ [first])) between,
      answer.client = first.client → answer.logged = none)
    {held : Nat}
    (hsecond : (admitRejection (after [] (before ++ first :: between)) second).1 = some held) :
    (window ≤ second.now - first.now ∧
      held = min (between.countP (fun rejection => rejection.client = first.client)) most) ∨
      DroppedAmong (after [] (before ++ [first])) between first.client first.now
        (answers [] (before ++ [first])) := by
  have hempty : Sound [] [] := ⟨List.nodup_nil, Nat.zero_le _, nofun⟩
  have hsound := after_sound (before ++ [first]) hempty
  have hlogged := logged_value hfirst
  have hstart : after [] (before ++ [first]) = (admitRejection (after [] before) first).2 :=
    after_append [] before [first]
  have hlast : after [] (before ++ first :: between) =
      after (after [] (before ++ [first])) between := by
    rw [← after_append, List.append_assoc, List.singleton_append]
  rw [← hstart] at hlogged
  rw [hlast] at hsecond
  rcases quiet_run 0 hsound hlogged hquiet with hvalue | hdropped
  · refine .inl ?_
    rw [← hclient] at hvalue
    have hlate := late_of_logged hvalue (by rw [hsecond]; rfl)
    rw [admitRejection_late hvalue hlate, Nat.zero_add, hclient] at hsecond
    exact ⟨hlate, (Option.some.inj hsecond).symm⟩
  · exact .inr hdropped

/-- A rejection of one client at some second. -/
def rejectionAt (second : Nat) : Rejection where
  ip := .v4 ⟨198, 51, 100, 7⟩
  now := second * 1000000000
  iteration := .asListed _ _

theorem records_spaced_minute :
    (window ≤ (rejectionAt 60).now - (rejectionAt 0).now ∧ 2 = min (List.countP
      (fun rejection => rejection.client = (rejectionAt 0).client)
      [rejectionAt 1, rejectionAt 59]) most) ∨
      DroppedAmong (after [] [rejectionAt 0]) [rejectionAt 1, rejectionAt 59] (rejectionAt 0).client
        (rejectionAt 0).now (answers [] [rejectionAt 0]) :=
  records_spaced [] [rejectionAt 1, rejectionAt 59] (rejectionAt 0) (rejectionAt 60) rfl (by decide)
    (by decide) (by decide)

end Detent.Guarantees.RejectionRecords
