import Mathlib.Tactic.Common

/-!
# A request and response wire

A first-in first-out wire between a caller and a server that answers requests
in the order they were sent. Every request has a number, and an answer carries
the number of the request it belongs to, so that a reader can be compared with
the answer it should have taken. The number is not on the real wire.
-/
namespace Detent.Lib

variable {Req Resp : Type}

/-- Requests the server has not answered and answers the caller has not read,
oldest first. `sent` is the number of the next request. -/
structure Wire (Req Resp : Type) where
  sent : Nat
  queue : List (Nat × Req)
  unread : List (Nat × Resp)
  deriving DecidableEq, Repr

namespace Wire

def empty : Wire Req Resp := { sent := 0, queue := [], unread := [] }

/-- The caller sends a request. -/
def send (w : Wire Req Resp) (request : Req) : Wire Req Resp :=
  { w with sent := w.sent + 1, queue := w.queue ++ [(w.sent, request)] }

/-- The server answers the oldest request. -/
def answer (w : Wire Req Resp) (response : Resp) : Option (Wire Req Resp) :=
  match w.queue with
  | [] => none
  | (number, _) :: queue => some { w with queue, unread := w.unread ++ [(number, response)] }

/-- The server is done with the oldest request, and answered it or not. -/
def settle (w : Wire Req Resp) (response : Option Resp) : Wire Req Resp :=
  match w.queue with
  | [] => w
  | (number, _) :: queue =>
    { w with queue, unread := w.unread ++ (response.map (fun response => (number, response))).toList }

/-- The server is gone: it answers none of the requests that wait. -/
def close (w : Wire Req Resp) : Wire Req Resp := { w with queue := [] }

/-- The caller takes the oldest answer. -/
def take (w : Wire Req Resp) : Option ((Nat × Resp) × Wire Req Resp) :=
  match w.unread with
  | [] => none
  | head :: unread => some (head, { w with unread })

/-- The numbers of the requests whose answer the caller has not taken. -/
def outstanding (w : Wire Req Resp) : List Nat :=
  w.unread.map Prod.fst ++ w.queue.map Prod.fst

/-- No answer is due but the one to request `number`. -/
def AwaitsOnly (w : Wire Req Resp) (number : Nat) : Prop :=
  ∀ n ∈ w.outstanding, n = number

theorem outstanding_eq_nil {w : Wire Req Resp} :
    w.outstanding = [] ↔ w.unread = [] ∧ w.queue = [] := by
  simp [outstanding]

theorem send_awaitsOnly (w : Wire Req Resp) (request : Req) (h : w.outstanding = []) :
    (w.send request).AwaitsOnly w.sent := by
  intro n hn
  have hout : (w.send request).outstanding = w.outstanding ++ [w.sent] := by
    simp [outstanding, send]
  rw [hout, h] at hn
  simpa using hn

/-- Answering moves a request's number; it does not change which are due. -/
theorem answer_outstanding {w w' : Wire Req Resp} {response : Resp}
    (h : w.answer response = some w') : w'.outstanding = w.outstanding := by
  unfold answer at h
  split at h
  · cases h
  next number request queue hq =>
    obtain rfl := Option.some.inj h
    simp [outstanding, hq]

theorem take_outstanding {w w' : Wire Req Resp} {number : Nat} {response : Resp}
    (h : w.take = some ((number, response), w')) :
    w.outstanding = number :: w'.outstanding := by
  unfold take at h
  split at h
  · cases h
  next head unread hu =>
    obtain ⟨rfl, rfl⟩ := Prod.mk.inj (Option.some.inj h)
    simp [outstanding, hu]

/-- With one answer due, the next one taken is it. -/
theorem take_of_awaitsOnly {w w' : Wire Req Resp} {number n : Nat} {response : Resp}
    (hw : w.AwaitsOnly number) (h : w.take = some ((n, response), w')) :
    n = number ∧ w'.AwaitsOnly number := by
  have hout := take_outstanding h
  constructor
  · exact hw n (by rw [hout]; exact List.mem_cons_self)
  · intro m hm
    exact hw m (by rw [hout]; exact List.mem_cons_of_mem _ hm)

end Wire

end Detent.Lib
