import Dagayn.McpSession
import Dagayn.Runs
import Mathlib

/-!
# The front end between client and backend

The session with its two pipes: `handle` writes client lines into the request pipe or
answers them, the backend reads the lines in order and answers the requests among them
once each, in any order, and `relay` copies the backend's lines to the client. The
backend may also write lines of its own (notifications, requests, parse errors).

`lines` are the client's lines so far; a line is known by its position. `seen` and
`written` are what the backend has read and written, for the statements below.
-/

namespace Dagayn

namespace Mcp

/-- A line in the request pipe: the replay of the opening, or a client's line. -/
inductive Sent where
  | initReplay (params : Json)
  | discoverReplay (envelope : Json)
  /-- The `notifications/initialized` of the replay. -/
  | initializedReplay
  | client (i : Nat) (line : Option Json)

namespace Sent

/-- The id of a line the backend has to answer. -/
def requestId : Sent → Option Json
  | initReplay _ => some (.str proxyInitId)
  | discoverReplay _ => some (.str proxyInitId)
  | initializedReplay => none
  | client _ line => Mcp.requestId line

def isInitialize : Sent → Bool
  | initReplay _ => true
  | client _ line => Mcp.isInitialize line
  | _ => false

def isClient (i : Nat) : Sent → Bool
  | client j _ => j = i
  | _ => false

end Sent

def replay : Opening → Sent
  | .handshake params => .initReplay params
  | .modern envelope => .discoverReplay envelope

/-- What `boot` writes into the request pipe. -/
def bootLines (s : Session) : List Sent :=
  match s.modern, s.initParams with
  | some envelope, _ => [.discoverReplay envelope]
  | none, some params => .initReplay params :: if s.initialized then [.initializedReplay] else []
  | none, none => []

/-- A line the client receives: the front end's reply, or one of the backend's with the
line it answers. -/
inductive Out where
  | own (i : Nat) (id result : Json)
  | relayed (source : Option Sent) (message : Json)

def isProxyId : Json → Bool
  | .str id => id = proxyInitId
  | _ => false

/-- `is_init_reply` in `relay`. -/
def isInitReply (message : Json) : Bool := (message.get "id").any isProxyId

structure Sys where
  session : Session := {}
  lines : List (Option Json) := []
  pipe : List Sent := []
  seen : List Sent := []
  /-- Requests the backend has read and not answered. -/
  pending : List Sent := []
  /-- The reply pipe. -/
  replies : List (Option Sent × Json) := []
  written : List (Option Sent × Json) := []
  output : List Out := []

inductive Act where
  | line (l : Option Json)
  | read
  | answer (k : Nat) (fields : List (String × Json))
  | emit (message : Json)
  | relay

variable (config : Config) (native : Native)

namespace Sys

/-- `handle` with its writes; `delegate` boots the backend if it does not run. -/
def receive (q : Sys) (l : Option Json) : Sys :=
  let i := q.lines.length
  let r := handle config native q.session l
  let q := { q with session := r.1, lines := q.lines ++ [l] }
  match r.2 with
  | .reply id result => { q with output := q.output ++ [.own i id result] }
  | .delegate =>
      if r.1.booted then { q with pipe := q.pipe ++ [.client i l] }
      else { q with
        session := { r.1 with booted := true }
        pipe := q.pipe ++ (bootLines r.1 ++ [.client i l]) }
  | .forward => if r.1.booted then { q with pipe := q.pipe ++ [.client i l] } else q
  | .drop => q

def step (q : Sys) : Act → Option Sys
  | .line l => some (q.receive config native l)
  | .read =>
      match q.pipe with
      | [] => none
      | x :: rest => some
          { q with
            pipe := rest
            seen := q.seen ++ [x]
            pending := if x.requestId.isSome then q.pending ++ [x] else q.pending }
  | .answer k fields =>
      q.pending[k]?.bind fun x => x.requestId.map fun id =>
        let r := (some x, .obj (("id", id) :: fields))
        { q with
          pending := q.pending.eraseIdx k
          replies := q.replies ++ [r]
          written := q.written ++ [r] }
  | .emit message =>
      if q.session.booted then some
        { q with
          replies := q.replies ++ [(none, message)]
          written := q.written ++ [(none, message)] }
      else none
  | .relay =>
      match q.replies with
      | [] => none
      | r :: rest => some
          { q with
            replies := rest
            output := if isInitReply r.2 then q.output else q.output ++ [.relayed r.1 r.2] }

def log (q : Sys) : List Sent := q.seen ++ q.pipe

end Sys

def Started (q : Sys) : Prop := q = {}

/-- The states of all sessions, whatever the client and the backend do. -/
abbrev Reached : Sys → Prop := Reach Started (Sys.step config native) anyStep

/-! ## One line -/

theorem receive_cases (q : Sys) (l : Option Json) :
    (∃ id result, requestId l = some id ∧ q.receive config native l =
        { q with
          session := (handle config native q.session l).1
          lines := q.lines ++ [l]
          output := q.output ++ [.own q.lines.length id result] }) ∨
      (q.session.booted = true ∧ q.receive config native l =
        { q with
          session := (handle config native q.session l).1
          lines := q.lines ++ [l]
          pipe := q.pipe ++ [.client q.lines.length l] }) ∨
      (q.session.booted = false ∧ (handle config native q.session l).2 = .delegate ∧
        q.receive config native l =
        { q with
          session := { (handle config native q.session l).1 with booted := true }
          lines := q.lines ++ [l]
          pipe := q.pipe ++
            (bootLines (handle config native q.session l).1 ++ [.client q.lines.length l]) }) ∨
      (requestId l = none ∧ q.receive config native l =
        { q with
          session := (handle config native q.session l).1
          lines := q.lines ++ [l] }) := by
  have hbooted := handle_booted config native q.session l
  unfold Sys.receive
  dsimp only
  rw [hbooted]
  rcases handle_cases config native q.session l with ⟨id, result, hid, hr⟩ | hr | ⟨hid, hr | hr⟩
  · rw [hr]
    exact .inl ⟨id, result, hid, rfl⟩
  · rw [hr]
    cases hb : q.session.booted with
    | true => exact .inr (.inl ⟨rfl, rfl⟩)
    | false => exact .inr (.inr (.inl ⟨rfl, rfl, rfl⟩))
  · rw [hr]
    cases hb : q.session.booted with
    | true => exact .inr (.inl ⟨rfl, rfl⟩)
    | false => exact .inr (.inr (.inr ⟨hid, rfl⟩))
  · rw [hr]
    exact .inr (.inr (.inr ⟨hid, rfl⟩))

theorem step_cases {q q' : Sys} {a : Act} (h : q.step config native a = some q') :
    (∃ l, q' = q.receive config native l) ∨
      (∃ x rest, q.pipe = x :: rest ∧ q' = { q with
        pipe := rest
        seen := q.seen ++ [x]
        pending := if x.requestId.isSome then q.pending ++ [x] else q.pending }) ∨
      (∃ k x id fields, q.pending[k]? = some x ∧ x.requestId = some id ∧ q' = { q with
        pending := q.pending.eraseIdx k
        replies := q.replies ++ [(some x, .obj (("id", id) :: fields))]
        written := q.written ++ [(some x, .obj (("id", id) :: fields))] }) ∨
      (∃ message, q.session.booted = true ∧ q' = { q with
        replies := q.replies ++ [(none, message)]
        written := q.written ++ [(none, message)] }) ∨
      (∃ r rest, q.replies = r :: rest ∧ q' = { q with
        replies := rest
        output := if isInitReply r.2 then q.output else q.output ++ [.relayed r.1 r.2] }) := by
  cases a with
  | line l => exact .inl ⟨l, (Option.some.inj h).symm⟩
  | read =>
      rw [Sys.step] at h
      split at h
      · exact absurd h (by simp)
      · rename_i x rest hpipe
        exact .inr (.inl ⟨x, rest, hpipe, (Option.some.inj h).symm⟩)
  | answer k fields =>
      obtain ⟨x, hx, h⟩ := Option.bind_eq_some_iff.mp h
      obtain ⟨id, hid, h⟩ := Option.map_eq_some_iff.mp h
      exact .inr (.inr (.inl ⟨k, x, id, fields, hx, hid, h.symm⟩))
  | emit message =>
      rw [Sys.step] at h
      split at h
      · rename_i hb
        exact .inr (.inr (.inr (.inl ⟨message, hb, (Option.some.inj h).symm⟩)))
      · exact absurd h (by simp)
  | relay =>
      rw [Sys.step] at h
      split at h
      · exact absurd h (by simp)
      · rename_i r rest hreplies
        exact .inr (.inr (.inr (.inr ⟨r, rest, hreplies, (Option.some.inj h).symm⟩)))

/-! ## Lines keep their position -/

/-- A client line in a pipe is the one at its position. -/
def Named (lines : List (Option Json)) (x : Sent) : Prop :=
  ∀ i l, x = .client i l → lines[i]? = some l

theorem Named.append {lines : List (Option Json)} {x : Sent} (h : Named lines x)
    (l : Option Json) : Named (lines ++ [l]) x := by
  intro i l' hx
  have hi := h i l' hx
  rw [List.getElem?_append_left (List.getElem?_eq_some_iff.mp hi).1]
  exact hi

theorem named_client (lines : List (Option Json)) (l : Option Json) :
    Named (lines ++ [l]) (.client lines.length l) := by
  intro i l' hx
  cases hx
  simp

theorem bootLines_not_client (s : Session) (i : Nat) :
    ∀ x ∈ bootLines s, x.isClient i = false := by
  intro x hx
  unfold bootLines at hx
  split at hx
  · rw [List.mem_singleton.mp hx]
    rfl
  · rcases List.mem_cons.mp hx with rfl | hx
    · rfl
    · split at hx
      · rw [List.mem_singleton.mp hx]
        rfl
      · exact absurd hx List.not_mem_nil
  · exact absurd hx List.not_mem_nil

theorem named_bootLines (lines : List (Option Json)) (s : Session) :
    ∀ x ∈ bootLines s, Named lines x := by
  intro x hx i l hxl
  have hnot := bootLines_not_client s i x hx
  rw [hxl] at hnot
  simp [Sent.isClient] at hnot

/-- Every line on its way is a client's line at its position or part of the replay, the
requests among them have ids, and replies carry the id they answer. -/
structure Sys.Traced (q : Sys) : Prop where
  log : ∀ x ∈ q.log, Named q.lines x
  pending : ∀ x ∈ q.pending, Named q.lines x ∧ x.requestId.isSome
  replies : ∀ r ∈ q.replies, ∀ x, r.1 = some x → Named q.lines x ∧ r.2.get "id" = x.requestId
  written : ∀ r ∈ q.written, ∀ x, r.1 = some x → r.2.get "id" = x.requestId
  output : ∀ x m, .relayed (some x) m ∈ q.output → m.get "id" = x.requestId ∧ isInitReply m = false

theorem Sys.Traced.receive {q : Sys} (h : q.Traced) (l : Option Json) :
    (q.receive config native l).Traced := by
  have hlog : ∀ x ∈ q.log, Named (q.lines ++ [l]) x := fun x hx => (h.log x hx).append l
  have hpending : ∀ x ∈ q.pending, Named (q.lines ++ [l]) x ∧ x.requestId.isSome :=
    fun x hx => ⟨(h.pending x hx).1.append l, (h.pending x hx).2⟩
  have hreplies : ∀ r ∈ q.replies, ∀ x, r.1 = some x →
      Named (q.lines ++ [l]) x ∧ r.2.get "id" = x.requestId :=
    fun r hr x hx => ⟨(h.replies r hr x hx).1.append l, (h.replies r hr x hx).2⟩
  have hself := named_client q.lines l
  rcases receive_cases config native q l with ⟨id, result, -, heq⟩ | ⟨-, heq⟩ | ⟨-, -, heq⟩ |
    ⟨-, heq⟩ <;> rw [heq]
  · refine ⟨hlog, hpending, hreplies, h.written, fun x m hm => ?_⟩
    rcases List.mem_append.mp hm with hm | hm
    · exact h.output x m hm
    · exact absurd (List.mem_singleton.mp hm) (by simp)
  · refine ⟨fun x hx => ?_, hpending, hreplies, h.written, h.output⟩
    rw [Sys.log, ← List.append_assoc] at hx
    rcases List.mem_append.mp hx with hx | hx
    · exact hlog x hx
    · rw [List.mem_singleton.mp hx]
      exact hself
  · refine ⟨fun x hx => ?_, hpending, hreplies, h.written, h.output⟩
    rw [Sys.log, ← List.append_assoc] at hx
    rcases List.mem_append.mp hx with hx | hx
    · exact hlog x hx
    · rcases List.mem_append.mp hx with hx | hx
      · exact named_bootLines _ _ x hx
      · rw [List.mem_singleton.mp hx]
        exact hself
  · exact ⟨hlog, hpending, hreplies, h.written, h.output⟩

theorem Sys.Traced.next {q q' : Sys} {a : Act} (h : q.Traced)
    (hs : q.step config native a = some q') : q'.Traced := by
  rcases step_cases config native hs with ⟨l, rfl⟩ | ⟨x, rest, hpipe, rfl⟩ |
    ⟨k, x, id, fields, hx, hid, rfl⟩ | ⟨message, -, rfl⟩ | ⟨r, rest, hreplies, rfl⟩
  · exact h.receive config native l
  · have hx : x ∈ q.log := by simp [Sys.log, hpipe]
    refine ⟨fun y hy => h.log y ?_, fun y hy => ?_, h.replies, h.written, h.output⟩
    · simpa [Sys.log, hpipe] using hy
    · dsimp only at hy
      split at hy
      · rename_i hreq
        rcases List.mem_append.mp hy with hy | hy
        · exact h.pending y hy
        · rw [List.mem_singleton.mp hy]
          exact ⟨h.log x hx, hreq⟩
      · exact h.pending y hy
  · have hmem : x ∈ q.pending := List.mem_of_getElem? hx
    have hget : (Json.obj (("id", id) :: fields)).get "id" = x.requestId := by
      rw [hid]
      rfl
    refine ⟨h.log, fun y hy => h.pending y (List.mem_of_mem_eraseIdx hy), fun r hr y hy => ?_,
      fun r hr y hy => ?_, h.output⟩
    · rcases List.mem_append.mp hr with hr | hr
      · exact h.replies r hr y hy
      · rw [List.mem_singleton.mp hr] at hy ⊢
        cases hy
        exact ⟨(h.pending x hmem).1, hget⟩
    · rcases List.mem_append.mp hr with hr | hr
      · exact h.written r hr y hy
      · rw [List.mem_singleton.mp hr] at hy ⊢
        cases hy
        exact hget
  · refine ⟨h.log, h.pending, fun r hr y hy => ?_, fun r hr y hy => ?_, h.output⟩
    · rcases List.mem_append.mp hr with hr | hr
      · exact h.replies r hr y hy
      · rw [List.mem_singleton.mp hr] at hy
        exact absurd hy (by simp)
    · rcases List.mem_append.mp hr with hr | hr
      · exact h.written r hr y hy
      · rw [List.mem_singleton.mp hr] at hy
        exact absurd hy (by simp)
  · refine ⟨h.log, h.pending, fun r' hr' => h.replies r' ?_, h.written, fun x m hm => ?_⟩
    · rw [hreplies]
      exact List.mem_cons_of_mem r hr'
    · dsimp only at hm
      split at hm
      · exact h.output x m hm
      · rename_i hkeep
        rcases List.mem_append.mp hm with hm | hm
        · exact h.output x m hm
        · have hr := List.mem_singleton.mp hm
          obtain ⟨hsrc, rfl⟩ := Out.relayed.inj hr
          refine ⟨(h.replies r (by rw [hreplies]; exact List.mem_cons_self) x hsrc.symm).2, ?_⟩
          simpa using hkeep

theorem reached_traced {q : Sys} (h : Reached config native q) : q.Traced := by
  refine h.invariant (fun q h0 => ?_) fun q a q' _ hq _ hs => hq.next config native hs
  rw [h0]
  exact ⟨nofun, nofun, nofun, nofun, nofun⟩

/-! ## Replies are neither lost nor doubled -/

/-- The source of a reply is the client's line `i`. -/
def fromClient (i : Nat) (r : Option Sent × Json) : Bool := r.1.any (Sent.isClient i)

/-- A line the client receives that answers its line `i`. -/
def Out.answers (i : Nat) : Out → Bool
  | own j _ _ => j = i
  | relayed source _ => source.any (Sent.isClient i)

namespace Sys

/-- The places where the client's line `i`, or the reply to it, is on its way. -/
def inFlight (q : Sys) (i : Nat) : Nat :=
  q.pipe.countP (Sent.isClient i) + q.pending.countP (Sent.isClient i) +
    q.replies.countP (fromClient i)

/-- How many replies to its line `i` the client has received. -/
def answered (q : Sys) (i : Nat) : Nat := q.output.countP (Out.answers i)

/-- The id of the client's line `i`, if it is a request. -/
def requestAt (q : Sys) (i : Nat) : Option Json := q.lines[i]?.bind requestId

/-- Every request with an id other than the replay's is on its way or answered, once;
there is nothing of a line not yet received. -/
structure Accounted (q : Sys) : Prop where
  once : ∀ i id, q.requestAt i = some id → isProxyId id = false →
    q.inFlight i + q.answered i = 1
  none : ∀ i, q.lines.length ≤ i → q.inFlight i + q.answered i = 0

end Sys

theorem countP_client (i j : Nat) (l : Option Json) :
    [Sent.client j l].countP (Sent.isClient i) = if j = i then 1 else 0 := by
  by_cases h : j = i <;> simp [Sent.isClient, h]

theorem countP_bootLines (s : Session) (i : Nat) : (bootLines s).countP (Sent.isClient i) = 0 := by
  rw [List.countP_eq_zero]
  intro x hx
  simpa using bootLines_not_client s i x hx

theorem receive_counts (q : Sys) (l : Option Json) (i : Nat) :
    (i ≠ q.lines.length → (q.receive config native l).inFlight i +
        (q.receive config native l).answered i = q.inFlight i + q.answered i) ∧
      (i = q.lines.length → (requestId l).isSome → (q.receive config native l).inFlight i +
        (q.receive config native l).answered i = q.inFlight i + q.answered i + 1) := by
  unfold Sys.inFlight Sys.answered
  rcases receive_cases config native q l with ⟨id, result, -, heq⟩ | ⟨-, heq⟩ | ⟨-, -, heq⟩ |
    ⟨hid, heq⟩ <;> rw [heq] <;> dsimp only
  · rw [List.countP_append]
    refine ⟨fun hi => ?_, fun hi _ => ?_⟩
    · have hne : ¬q.lines.length = i := fun h => hi h.symm
      simp [Out.answers, hne]
    · simp [Out.answers, hi]
      omega
  · rw [List.countP_append, countP_client]
    refine ⟨fun hi => ?_, fun hi _ => ?_⟩
    · rw [if_neg (Ne.symm hi)]
      omega
    · rw [if_pos hi.symm]
      omega
  · rw [List.countP_append, List.countP_append, countP_bootLines, countP_client]
    refine ⟨fun hi => ?_, fun hi _ => ?_⟩
    · rw [if_neg (Ne.symm hi)]
      omega
    · rw [if_pos hi.symm]
      omega
  · refine ⟨fun _ => rfl, fun _ hsome => ?_⟩
    rw [hid] at hsome
    exact absurd hsome (by simp)

theorem receive_lines (q : Sys) (l : Option Json) :
    (q.receive config native l).lines = q.lines ++ [l] := by
  rcases receive_cases config native q l with ⟨id, result, -, heq⟩ | ⟨-, heq⟩ | ⟨-, -, heq⟩ |
    ⟨-, heq⟩ <;> rw [heq]

theorem Sys.Accounted.receive {q : Sys} (h : q.Accounted) (l : Option Json) :
    (q.receive config native l).Accounted := by
  refine ⟨fun i id hid hproxy => ?_, fun i hi => ?_⟩
  · unfold Sys.requestAt at hid
    rw [receive_lines] at hid
    by_cases hi : i = q.lines.length
    · have hsome : (requestId l).isSome := by
        rw [hi] at hid
        simp only [List.getElem?_concat_length, Option.bind_some] at hid
        rw [hid]
        rfl
      rw [(receive_counts config native q l i).2 hi hsome, h.none i (by omega)]
    · rw [(receive_counts config native q l i).1 hi]
      refine h.once i id ?_ hproxy
      unfold Sys.requestAt
      by_cases hlt : i < q.lines.length
      · rwa [List.getElem?_append_left hlt] at hid
      · rw [List.getElem?_eq_none (by simp; omega)] at hid
        exact absurd hid (by simp)
  · rw [receive_lines, List.length_append, List.length_singleton] at hi
    rw [(receive_counts config native q l i).1 (by omega)]
    exact h.none i (by omega)

theorem client_of_isClient {x : Sent} {i : Nat} (h : x.isClient i = true) :
    ∃ l, x = .client i l := by
  cases x with
  | client j l =>
      have hj : j = i := by simpa [Sent.isClient] using h
      exact ⟨l, by rw [hj]⟩
  | initReplay params => exact absurd h (by simp [Sent.isClient])
  | discoverReplay envelope => exact absurd h (by simp [Sent.isClient])
  | initializedReplay => exact absurd h (by simp [Sent.isClient])

theorem requestId_of_named {q : Sys} {x : Sent} {i : Nat} (hx : Named q.lines x)
    (hi : x.isClient i = true) : x.requestId = q.requestAt i := by
  obtain ⟨l, rfl⟩ := client_of_isClient hi
  unfold Sys.requestAt
  rw [hx i l rfl]
  rfl

/-- The steps of the backend and of the relay move replies on; they drop only what
answers no request, and the replies with the id of the replay. -/
theorem step_counts {q q' : Sys} {a : Act} (h : q.Traced) (hs : q.step config native a = some q')
    (i : Nat) :
    (∃ l, q' = q.receive config native l) ∨
      (q'.lines = q.lines ∧ q'.inFlight i + q'.answered i ≤ q.inFlight i + q.answered i ∧
        ∀ id, q.requestAt i = some id → isProxyId id = false →
          q'.inFlight i + q'.answered i = q.inFlight i + q.answered i) := by
  rcases step_cases config native hs with hl | ⟨x, rest, hpipe, rfl⟩ |
    ⟨k, x, id, fields, hx, hid, rfl⟩ | ⟨message, -, rfl⟩ | ⟨r, rest, hreplies, rfl⟩
  · exact .inl hl
  · refine .inr ⟨rfl, ?_, fun id hid _ => ?_⟩ <;> unfold Sys.inFlight Sys.answered <;>
      dsimp only <;> rw [hpipe, List.countP_cons]
    · split
      · rw [List.countP_append, List.countP_singleton]
        omega
      · omega
    · split
      · rw [List.countP_append, List.countP_singleton]
        omega
      · rename_i hreq
        have hnot : ¬x.isClient i = true := by
          intro hi
          have hxid := requestId_of_named (h.log x (by simp [Sys.log, hpipe])) hi
          rw [hxid, hid] at hreq
          exact hreq rfl
        rw [if_neg hnot]
        omega
  · obtain ⟨hk, rfl⟩ := List.getElem?_eq_some_iff.mp hx
    have hperm := (List.getElem_cons_eraseIdx_perm hk).countP_eq (Sent.isClient i)
    rw [List.countP_cons] at hperm
    have hsame : ∀ m : Json, [(some q.pending[k], m)].countP (fromClient i)
        = if (q.pending[k]).isClient i then 1 else 0 := by
      intro m
      rw [List.countP_singleton]
      rfl
    refine .inr ⟨rfl, ?_, fun id' _ _ => ?_⟩ <;> unfold Sys.inFlight Sys.answered <;>
      dsimp only <;> rw [List.countP_append, hsame] <;> omega
  · have hnone : [(none, message)].countP (fromClient i) = 0 := by simp [fromClient]
    refine .inr ⟨rfl, ?_, fun id' _ _ => ?_⟩ <;> unfold Sys.inFlight Sys.answered <;>
      dsimp only <;> rw [List.countP_append, hnone] <;> omega
  · have hout : [Out.relayed r.1 r.2].countP (Out.answers i) = if fromClient i r then 1 else 0 := by
      rw [List.countP_singleton]
      rfl
    refine .inr ⟨rfl, ?_, fun id hid hproxy => ?_⟩ <;> unfold Sys.inFlight Sys.answered <;>
      dsimp only <;> rw [hreplies, List.countP_cons]
    · split
      · omega
      · rw [List.countP_append, hout]
        omega
    · split
      · rename_i hinit
        have hnot : ¬fromClient i r = true := by
          intro hfrom
          obtain ⟨x, hx, hi⟩ := (Option.any_eq_true _ _).mp hfrom
          obtain ⟨hnamed, hget⟩ := h.replies r (by rw [hreplies]; exact List.mem_cons_self) x hx
          rw [isInitReply, hget, requestId_of_named hnamed hi, hid, Option.any_some,
            hproxy] at hinit
          exact absurd hinit (by simp)
        rw [if_neg hnot]
        omega
      · rw [List.countP_append, hout]
        omega

theorem requestAt_of_lines {q q' : Sys} (h : q'.lines = q.lines) (i : Nat) :
    q'.requestAt i = q.requestAt i := by
  unfold Sys.requestAt
  rw [h]

theorem Sys.Accounted.next {q q' : Sys} {a : Act} (ht : q.Traced) (h : q.Accounted)
    (hs : q.step config native a = some q') : q'.Accounted := by
  refine ⟨fun i id hid hproxy => ?_, fun i hi => ?_⟩
  · rcases step_counts config native ht hs i with ⟨l, rfl⟩ | ⟨hlines, -, hsame⟩
    · exact (h.receive config native l).once i id hid hproxy
    · rw [requestAt_of_lines hlines] at hid
      rw [hsame id hid hproxy]
      exact h.once i id hid hproxy
  · rcases step_counts config native ht hs i with ⟨l, rfl⟩ | ⟨hlines, hle, -⟩
    · exact (h.receive config native l).none i hi
    · rw [hlines] at hi
      have hzero := h.none i hi
      omega

theorem reached_accounted {q : Sys} (h : Reached config native q) : q.Accounted := by
  refine h.invariant (fun q h0 => ?_) fun q a q' hr hq _ hs =>
    hq.next config native (reached_traced config native hr) hs
  rw [h0]
  refine ⟨fun i id hid => ?_, fun i _ => rfl⟩
  exact absurd hid (by simp [Sys.requestAt])

/-! ## Draining -/

def Sys.Drained (q : Sys) : Prop := q.pipe = [] ∧ q.pending = [] ∧ q.replies = []

theorem Sys.Drained.inFlight {q : Sys} (h : q.Drained) (i : Nat) : q.inFlight i = 0 := by
  unfold Sys.inFlight
  rw [h.1, h.2.1, h.2.2]
  rfl

def Act.moves : Act → Bool
  | read => true
  | answer _ _ => true
  | relay => true
  | _ => false

def Sys.load (q : Sys) : Nat := 3 * q.pipe.length + 2 * q.pending.length + q.replies.length

theorem drained_or_moves {q : Sys} (ht : q.Traced) :
    q.Drained ∨ ∃ a q', Act.moves a = true ∧ q.step config native a = some q' ∧
      q'.lines = q.lines ∧ q'.load < q.load := by
  cases hpipe : q.pipe with
  | cons x rest =>
      have hstep : q.step config native .read = some { q with
          pipe := rest
          seen := q.seen ++ [x]
          pending := if x.requestId.isSome then q.pending ++ [x] else q.pending } := by
        rw [Sys.step, hpipe]
      refine .inr ⟨_, _, rfl, hstep, rfl, ?_⟩
      unfold Sys.load
      dsimp only
      rw [hpipe, List.length_cons]
      split
      · rw [List.length_append, List.length_singleton]
        omega
      · omega
  | nil =>
      cases hpending : q.pending with
      | cons x rest =>
          obtain ⟨id, hid⟩ := Option.isSome_iff_exists.mp
            (ht.pending x (by rw [hpending]; exact List.mem_cons_self)).2
          have hstep : q.step config native (.answer 0 []) = some { q with
              pending := q.pending.eraseIdx 0
              replies := q.replies ++ [(some x, .obj [("id", id)])]
              written := q.written ++ [(some x, .obj [("id", id)])] } := by
            have hget : q.pending[0]? = some x := by rw [hpending]; rfl
            rw [Sys.step, hget, Option.bind_some, hid]
            rfl
          refine .inr ⟨_, _, rfl, hstep, rfl, ?_⟩
          unfold Sys.load
          dsimp only
          rw [hpending, List.eraseIdx_cons_zero]
          simp only [List.length_append, List.length_cons, List.length_nil]
          omega
      | nil =>
          cases hreplies : q.replies with
          | cons r rest =>
              have hstep : q.step config native .relay = some { q with
                  replies := rest
                  output := if isInitReply r.2 then q.output
                    else q.output ++ [.relayed r.1 r.2] } := by
                rw [Sys.step, hreplies]
              refine .inr ⟨_, _, rfl, hstep, rfl, ?_⟩
              unfold Sys.load
              dsimp only
              rw [hreplies, List.length_cons]
              omega
          | nil => exact .inl ⟨hpipe, hpending, hreplies⟩

theorem drains (n : Nat) : ∀ q : Sys, q.Traced → q.load ≤ n →
    ∃ as q', (∀ a ∈ as, Act.moves a = true) ∧
      runSteps (Sys.step config native) anyStep q as = some q' ∧ q'.Drained ∧
      q'.lines = q.lines := by
  induction n with
  | zero =>
      intro q ht hn
      rcases drained_or_moves config native ht with hd | ⟨a, q', -, -, -, hlt⟩
      · exact ⟨[], q, nofun, rfl, hd, rfl⟩
      · omega
  | succ n ih =>
      intro q ht hn
      rcases drained_or_moves config native ht with hd | ⟨a, q₁, ha, hs, hlines, hlt⟩
      · exact ⟨[], q, nofun, rfl, hd, rfl⟩
      · obtain ⟨as, q', has, hrun, hd, hlines'⟩ := ih q₁ (ht.next config native hs) (by omega)
        refine ⟨a :: as, q', List.forall_mem_cons.mpr ⟨ha, has⟩, ?_, hd, hlines'.trans hlines⟩
        rw [runSteps_anyStep_cons, hs]
        exact hrun

/-! ## What the backend reads first -/

/-- The line that started the backend is `b`: no earlier line is in the log, and the
first line read is the replay of the opening if one of the lines up to `b` opened the
session, and the line itself otherwise. -/
def Sys.StartedBy (q : Sys) (b : Nat) : Prop :=
  ∃ l, q.lines[b]? = some l ∧ .client b l ∈ q.log ∧
    (∀ i l', .client i l' ∈ q.log → b ≤ i) ∧
    q.log.head? = some (((q.lines.take (b + 1)).findSome? opens).elim (.client b l) replay)

structure Sys.Opened (q : Sys) : Prop where
  idle : q.session.booted = false →
    q.log = [] ∧ q.session.opening = q.lines.findSome? opens
  started : q.session.booted = true → ∃ b, q.StartedBy b

theorem head_bootLines (s : Session) (rest : List Sent) (x : Sent) :
    (bootLines s ++ x :: rest).head? = some (s.opening.elim x replay) := by
  unfold bootLines Session.opening
  cases s.modern with
  | some envelope => rfl
  | none => cases s.initParams <;> rfl

theorem Sys.StartedBy.grow {q q' : Sys} {b : Nat} (h : q.StartedBy b) (ls : List (Option Json))
    (xs : List Sent) (hlines : q'.lines = q.lines ++ ls) (hlog : q'.log = q.log ++ xs)
    (hxs : ∀ i l, .client i l ∈ xs → q.lines.length ≤ i) : q'.StartedBy b := by
  obtain ⟨l, hb, hmem, hmin, hhead⟩ := h
  have hlt := (List.getElem?_eq_some_iff.mp hb).1
  refine ⟨l, ?_, ?_, fun i l' hi => ?_, ?_⟩
  · rw [hlines, List.getElem?_append_left hlt]
    exact hb
  · rw [hlog]
    exact List.mem_append_left xs hmem
  · rw [hlog] at hi
    rcases List.mem_append.mp hi with hi | hi
    · exact hmin i l' hi
    · have := hxs i l' hi
      omega
  · rw [hlines, hlog, List.take_append_of_le_length (by omega), List.head?_append, hhead]
    rfl

theorem client_singleton {n i : Nat} {l l' : Option Json}
    (h : Sent.client i l' ∈ [Sent.client n l]) : n ≤ i := by
  cases List.mem_singleton.mp h
  exact Nat.le_refl _

theorem Sys.Opened.receive {q : Sys} (h : q.Opened) (l : Option Json) :
    (q.receive config native l).Opened := by
  have hbooted := handle_booted config native q.session l
  cases hb : q.session.booted with
  | true =>
      obtain ⟨b, hstart⟩ := h.started hb
      rcases receive_cases config native q l with ⟨id, result, -, heq⟩ | ⟨-, heq⟩ | ⟨hb', -, heq⟩ |
        ⟨-, heq⟩ <;> rw [heq]
      · exact ⟨fun hidle => absurd (hidle.symm.trans (hbooted.trans hb)) (by simp),
          fun _ => ⟨b, hstart.grow [l] [] rfl (List.append_nil _).symm nofun⟩⟩
      · refine ⟨fun hidle => absurd (hidle.symm.trans (hbooted.trans hb)) (by simp),
          fun _ => ⟨b, hstart.grow [l] [.client q.lines.length l] rfl ?_ ?_⟩⟩
        · exact (List.append_assoc _ _ _).symm
        · exact fun i l' hi => client_singleton hi
      · exact absurd (hb.symm.trans hb') (by simp)
      · exact ⟨fun hidle => absurd (hidle.symm.trans (hbooted.trans hb)) (by simp),
          fun _ => ⟨b, hstart.grow [l] [] rfl (List.append_nil _).symm nofun⟩⟩
  | false =>
      obtain ⟨hlog, hopen⟩ := h.idle hb
      -- the opening of the session is that of the lines with the new one
      have hopen' : (handle config native q.session l).1.opening
          = (q.lines ++ [l]).findSome? opens := by
        rw [handle_opening config native q.session l hb, hopen, List.findSome?_append]
        simp
      rcases receive_cases config native q l with ⟨id, result, -, heq⟩ | ⟨hb', -⟩ | ⟨-, -, heq⟩ |
        ⟨-, heq⟩
      · rw [heq]
        exact ⟨fun _ => ⟨hlog, hopen'⟩,
          fun hrun => absurd (hrun.symm.trans (hbooted.trans hb)) (by simp)⟩
      · exact absurd (hb.symm.trans hb') (by simp)
      · rw [heq]
        refine ⟨fun hidle => absurd hidle (by simp), fun _ =>
          ⟨q.lines.length, l, by simp, ?_, ?_, ?_⟩⟩
        · simp [Sys.log]
        · intro i l' hi
          have hlog' : q.seen ++ q.pipe = [] := hlog
          rw [Sys.log] at hi
          dsimp only at hi
          rw [← List.append_assoc, hlog', List.nil_append] at hi
          rcases List.mem_append.mp hi with hi | hi
          · have hnot := bootLines_not_client _ i _ hi
            simp [Sent.isClient] at hnot
          · exact client_singleton hi
        · have hlog' : q.seen ++ q.pipe = [] := hlog
          rw [Sys.log]
          dsimp only
          rw [← List.append_assoc, hlog', List.nil_append, head_bootLines, hopen',
            List.take_of_length_le (by simp)]
      · rw [heq]
        exact ⟨fun _ => ⟨hlog, hopen'⟩,
          fun hrun => absurd (hrun.symm.trans (hbooted.trans hb)) (by simp)⟩

theorem step_frame {q q' : Sys} {a : Act} (hs : q.step config native a = some q') :
    (∃ l, q' = q.receive config native l) ∨
      (q'.session = q.session ∧ q'.lines = q.lines ∧ q'.log = q.log) := by
  rcases step_cases config native hs with
    hl | ⟨x, rest, hpipe, rfl⟩ | ⟨k, x, id, fields, -, -, rfl⟩ |
    ⟨message, -, rfl⟩ | ⟨r, rest, -, rfl⟩
  · exact .inl hl
  · refine .inr ⟨rfl, rfl, ?_⟩
    simp [Sys.log, hpipe]
  · exact .inr ⟨rfl, rfl, rfl⟩
  · exact .inr ⟨rfl, rfl, rfl⟩
  · exact .inr ⟨rfl, rfl, rfl⟩

theorem Sys.Opened.next {q q' : Sys} {a : Act} (h : q.Opened)
    (hs : q.step config native a = some q') : q'.Opened := by
  rcases step_frame config native hs with ⟨l, rfl⟩ | ⟨hsession, hlines, hlog⟩
  · exact h.receive config native l
  · refine ⟨fun hb => ?_, fun hb => ?_⟩
    · rw [hsession] at hb
      rw [hlog, hsession, hlines]
      exact h.idle hb
    · rw [hsession] at hb
      obtain ⟨b, hstart⟩ := h.started hb
      exact ⟨b, hstart.grow [] [] (by rw [hlines, List.append_nil])
        (by rw [hlog, List.append_nil]) nofun⟩

theorem reached_opened {q : Sys} (h : Reached config native q) : q.Opened := by
  refine h.invariant (fun q h0 => ?_) fun q a q' _ hq _ hs => hq.next config native hs
  rw [h0]
  exact ⟨fun _ => ⟨rfl, rfl⟩, nofun⟩

/-! ## How often the backend reads an `initialize` -/

/-- Whether the replay holds an `initialize`. -/
def Session.replays (s : Session) : Nat :=
  match s.opening with
  | some (.handshake _) => 1
  | _ => 0

theorem countP_bootLines_init (s : Session) :
    (bootLines s).countP Sent.isInitialize = s.replays := by
  unfold bootLines Session.replays Session.opening
  cases s.modern with
  | some envelope => rfl
  | none =>
      cases s.initParams with
      | none => rfl
      | some params =>
          dsimp only
          split <;> rfl

/-- The backend reads no more of them than the client sent, counting the one it will
be sent when it starts. -/
def Sys.InitBounded (q : Sys) : Prop :=
  q.log.countP Sent.isInitialize + (if q.session.booted then 0 else q.session.replays)
    ≤ q.lines.countP isInitialize

theorem handle_replays {s : Session} (l : Option Json) (hb : s.booted = false) :
    (handle config native s l).1.replays ≤ s.replays + [l].countP isInitialize ∧
      ((handle config native s l).2 = .delegate →
        (handle config native s l).1.replays ≤ s.replays) := by
  have hopen := handle_opening config native s l hb
  unfold Session.replays
  rw [hopen]
  cases ho : s.opening with
  | some o => exact ⟨Nat.le_add_right _ _, fun _ => Nat.le_refl _⟩
  | none =>
      rw [Option.none_or]
      cases hl : opens l with
      | none => exact ⟨Nat.zero_le _, fun _ => Nat.zero_le _⟩
      | some o =>
          cases o with
          | modern envelope => exact ⟨Nat.zero_le _, fun _ => Nat.zero_le _⟩
          | handshake params =>
              refine ⟨?_, fun hd => absurd hd (handle_first_init config native s hb ho hl)⟩
              simp [isInitialize_of_opens hl]

theorem Sys.InitBounded.receive {q : Sys} (ho : q.Opened) (h : q.InitBounded) (l : Option Json) :
    (q.receive config native l).InitBounded := by
  have hbooted := handle_booted config native q.session l
  have hclient : [Sent.client q.lines.length l].countP Sent.isInitialize
      = [l].countP isInitialize := by
    rw [List.countP_singleton, List.countP_singleton]
    rfl
  unfold Sys.InitBounded at h ⊢
  cases hb : q.session.booted with
  | true =>
      rw [hb, if_pos rfl] at h
      rcases receive_cases config native q l with ⟨id, result, -, heq⟩ | ⟨-, heq⟩ | ⟨hb', -⟩ |
        ⟨-, heq⟩
      · rw [heq, List.countP_append, hbooted, hb, if_pos rfl]
        exact Nat.le_trans h (Nat.le_add_right _ _)
      · rw [heq, List.countP_append, hbooted, hb, if_pos rfl]
        unfold Sys.log at h ⊢
        dsimp only
        rw [← List.append_assoc, List.countP_append, hclient]
        omega
      · exact absurd (hb.symm.trans hb') (by simp)
      · rw [heq, List.countP_append, hbooted, hb, if_pos rfl]
        exact Nat.le_trans h (Nat.le_add_right _ _)
  | false =>
      have hlog := (ho.idle hb).1
      obtain ⟨hle, hdelegate⟩ := handle_replays config native l hb
      rw [hb, if_neg (by simp), hlog] at h
      simp only [List.countP_nil, Nat.zero_add] at h
      rcases receive_cases config native q l with ⟨id, result, -, heq⟩ | ⟨hb', -⟩ |
        ⟨-, hr, heq⟩ | ⟨-, heq⟩
      · rw [heq, List.countP_append, hbooted, hb, if_neg (by simp)]
        have hlog' : q.seen ++ q.pipe = [] := hlog
        unfold Sys.log
        dsimp only
        rw [hlog', List.countP_nil]
        omega
      · exact absurd (hb.symm.trans hb') (by simp)
      · rw [heq, List.countP_append, if_pos rfl]
        have hlog' : q.seen ++ q.pipe = [] := hlog
        have hboot := hdelegate hr
        unfold Sys.log
        dsimp only
        rw [← List.append_assoc, hlog', List.nil_append, List.countP_append,
          countP_bootLines_init, hclient]
        omega
      · rw [heq, List.countP_append, hbooted, hb, if_neg (by simp)]
        have hlog' : q.seen ++ q.pipe = [] := hlog
        unfold Sys.log
        dsimp only
        rw [hlog', List.countP_nil]
        omega

theorem reached_initBounded {q : Sys} (h : Reached config native q) : q.InitBounded := by
  refine h.invariant (fun q h0 => ?_) fun q a q' hr hq _ hs => ?_
  · rw [h0]
    exact Nat.le_refl 0
  · rcases step_frame config native hs with ⟨l, rfl⟩ | ⟨hsession, hlines, hlog⟩
    · exact hq.receive config native (reached_opened config native hr) l
    · unfold Sys.InitBounded at hq ⊢
      rw [hsession, hlines, hlog]
      exact hq

/-! ## What the relay drops -/

/-- The backend's lines the client has received. -/
def relayedOf (output : List Out) : List (Option Sent × Json) :=
  output.filterMap fun
    | .own _ _ _ => none
    | .relayed source message => some (source, message)

/-- The relay drops the lines with the id of the replay and nothing else. -/
def Sys.Relayed (q : Sys) : Prop :=
  relayedOf q.output ++ q.replies.filter (fun r => !isInitReply r.2)
    = q.written.filter fun r => !isInitReply r.2

theorem reached_relayed {q : Sys} (h : Reached config native q) : q.Relayed := by
  refine h.invariant (fun q h0 => ?_) fun q a q' _ hq _ hs => ?_
  · rw [h0]
    rfl
  · unfold Sys.Relayed at hq ⊢
    rcases step_cases config native hs with ⟨l, rfl⟩ | ⟨x, rest, -, rfl⟩ |
      ⟨k, x, id, fields, -, -, rfl⟩ | ⟨message, -, rfl⟩ | ⟨r, rest, hreplies, rfl⟩
    · rcases receive_cases config native q l with ⟨id, result, -, heq⟩ | ⟨-, heq⟩ | ⟨-, -, heq⟩ |
        ⟨-, heq⟩ <;> rw [heq]
      · rw [← hq]
        simp [relayedOf]
      · exact hq
      · exact hq
      · exact hq
    · exact hq
    · rw [List.filter_append, List.filter_append, ← List.append_assoc, hq]
    · rw [List.filter_append, List.filter_append, ← List.append_assoc, hq]
    · rw [← hq, hreplies]
      dsimp only
      cases hinit : isInitReply r.2 with
      | true => simp [hinit]
      | false => simp [hinit, relayedOf]

/-! ## Replies carry the id of their request -/

def Out.replyId : Out → Option Json
  | own _ id _ => some id
  | relayed _ message => message.get "id"

/-- A reply to the client's line `i` carries its id. -/
def Sys.Matched (q : Sys) : Prop :=
  ∀ o ∈ q.output, ∀ i, o.answers i = true →
    ∃ l, q.lines[i]? = some l ∧ o.replyId = requestId l

theorem reached_matched {q : Sys} (h : Reached config native q) : q.Matched := by
  refine h.invariant (fun q h0 => ?_) fun q a q' hr hq _ hs => ?_
  · rw [h0]
    exact fun o ho => absurd ho List.not_mem_nil
  · rcases step_cases config native hs with ⟨l, rfl⟩ | ⟨x, rest, -, rfl⟩ |
      ⟨k, x, id, fields, -, -, rfl⟩ | ⟨message, -, rfl⟩ | ⟨r, rest, hreplies, rfl⟩
    · have hold : ∀ o ∈ q.output, ∀ i, o.answers i = true →
          ∃ l', (q.lines ++ [l])[i]? = some l' ∧ o.replyId = requestId l' := by
        intro o ho i hi
        obtain ⟨l', hl', hid⟩ := hq o ho i hi
        refine ⟨l', ?_, hid⟩
        rw [List.getElem?_append_left (List.getElem?_eq_some_iff.mp hl').1]
        exact hl'
      rcases receive_cases config native q l with ⟨id, result, hid, heq⟩ | ⟨-, heq⟩ | ⟨-, -, heq⟩ |
        ⟨-, heq⟩ <;> rw [heq]
      · intro o ho i hi
        rcases List.mem_append.mp ho with ho | ho
        · exact hold o ho i hi
        · rw [List.mem_singleton.mp ho] at hi ⊢
          have hi' : q.lines.length = i := by simpa [Out.answers] using hi
          exact ⟨l, by rw [← hi']; simp, hid.symm⟩
      · exact hold
      · exact hold
      · exact hold
    · exact hq
    · exact hq
    · exact hq
    · intro o ho i hi
      dsimp only at ho
      split at ho
      · exact hq o ho i hi
      · rcases List.mem_append.mp ho with ho | ho
        · exact hq o ho i hi
        · rw [List.mem_singleton.mp ho] at hi ⊢
          obtain ⟨x, hx, hxi⟩ := (Option.any_eq_true _ _).mp hi
          obtain ⟨hnamed, hget⟩ := (reached_traced config native hr).replies r
            (by rw [hreplies]; exact List.mem_cons_self) x hx
          obtain ⟨l, rfl⟩ := client_of_isClient hxi
          exact ⟨l, hnamed i l rfl, hget⟩

/-! ## Every session -/

theorem isInitReply_replay {m : Json} {o : Opening} (h : m.get "id" = (replay o).requestId) :
    isInitReply m = true := by
  unfold isInitReply
  rw [h]
  cases o <;> rfl

/-- In every state of every session: a request with an id other than the replay's is on
its way or answered, once, and its reply carries its id; the backend and the relay can
finish, and then it is answered. The backend's first line is the replay of the opening,
or the line that started it where no line had opened the session by then; it reads no
more `initialize` requests than the client sent. The client receives the backend's lines
in order, but for those with the id of the replay, and none that answers the replay. And
while the backend runs, it gets every call of a tool that writes the graph. -/
theorem session_runs {q : Sys} (h : Reached config native q) :
    (∀ i id, q.requestAt i = some id → isProxyId id = false →
      q.inFlight i + q.answered i = 1) ∧
    q.Matched ∧
    (∃ as q', (∀ a ∈ as, Act.moves a = true) ∧
      runSteps (Sys.step config native) anyStep q as = some q' ∧ q'.Drained ∧
      ∀ i id, q.requestAt i = some id → isProxyId id = false → q'.answered i = 1) ∧
    (q.session.booted = true → ∃ b, q.StartedBy b) ∧
    q.log.countP Sent.isInitialize ≤ q.lines.countP isInitialize ∧
    q.Relayed ∧
    (∀ x m, .relayed (some x) m ∈ q.output → ∀ o, x ≠ replay o) ∧
    (q.session.booted = true → ∀ line name, calledTool line = some name →
      native.writesGraph name = true → (handle config native q.session line).2 = .delegate) := by
  have htraced := reached_traced config native h
  refine ⟨(reached_accounted config native h).once, reached_matched config native h, ?_,
    (reached_opened config native h).started, ?_, reached_relayed config native h, ?_, ?_⟩
  · obtain ⟨as, q', has, hrun, hd, hlines⟩ := drains config native q.load q htraced (Nat.le_refl _)
    refine ⟨as, q', has, hrun, hd, fun i id hid hproxy => ?_⟩
    have honce := (reached_accounted config native (reach_runSteps h hrun)).once i id
      (by rw [requestAt_of_lines hlines]; exact hid) hproxy
    rw [hd.inFlight, Nat.zero_add] at honce
    exact honce
  · exact Nat.le_trans (Nat.le_add_right _ _) (reached_initBounded config native h)
  · rintro x m hm o rfl
    obtain ⟨hid, hkeep⟩ := htraced.output _ m hm
    rw [isInitReply_replay hid] at hkeep
    exact absurd hkeep (by simp)
  · exact fun hb line name hname hwrites =>
      handle_writer config native q.session hb hname hwrites

/-! ### Examples of sessions -/

def plainConfig : Config where
  surface :=
    { capabilities := .obj []
      instructions := none
      serverName := "dagayn"
      tools := []
      prompts := []
      discover := none
      promptReplies := [] }
  allowedTools := none
  version := "1"

def noNative : Native := ⟨fun _ _ => none, fun _ => false⟩

def request (id : Json) (method : String) : Option Json :=
  some (.obj [("jsonrpc", .str "2.0"), ("id", id), ("method", .str method)])

/-- `initialize`, then a call that starts the backend, which answers it before the replay. -/
def callSession : List Act :=
  [.line (request (.int 1) "initialize"), .line (request (.int 2) "tools/call"), .read, .read,
    .answer 1 [("result", .null)], .relay, .answer 0 [("result", .null)], .relay]

theorem session_runs_call : ∃ q, Reached plainConfig noNative q ∧
    (q.answered 0 = 1 ∧ q.answered 1 = 1 ∧ q.output.length = 2 ∧ q.written.length = 2) ∧
    q.inFlight 1 + q.answered 1 = 1 ∧ ∃ b, q.StartedBy b := by
  obtain ⟨q, hq, htest⟩ := exists_reach_of_run Started (Sys.step plainConfig noNative) anyStep {}
    callSession (fun q => q.session.booted && decide (q.answered 0 = 1 ∧ q.answered 1 = 1 ∧
      q.output.length = 2 ∧ q.written.length = 2) &&
      (q.requestAt 1).any fun id => !isProxyId id) rfl (by decide +kernel)
  simp only [Bool.and_eq_true, decide_eq_true_eq] at htest
  obtain ⟨⟨hbooted, hcounts⟩, hreq⟩ := htest
  obtain ⟨id, hid, hproxy⟩ := (Option.any_eq_true _ _).mp hreq
  have hruns := session_runs plainConfig noNative hq
  exact ⟨q, hq, hcounts, hruns.1 1 id hid (by simpa using hproxy), hruns.2.2.2.1 hbooted⟩

/-- A request before `initialize` is the first line the backend reads; a second
`initialize` is read beside the replay of the first; and the reply to a request with the
id of the replay is dropped. -/
theorem session_exceptions :
    (∃ q, Reached plainConfig noNative q ∧
      q.seen.head?.any (fun x => x.isClient 0 && !x.isInitialize) = true) ∧
    (∃ q, Reached plainConfig noNative q ∧ decide (q.seen.countP Sent.isInitialize = 2) = true) ∧
    (∃ q, Reached plainConfig noNative q ∧
      ((q.requestAt 1).isSome && q.pipe.isEmpty && q.pending.isEmpty && q.replies.isEmpty &&
        decide (q.answered 1 = 0)) = true) := by
  refine ⟨?_, ?_, ?_⟩
  · exact exists_reach_of_run _ _ anyStep ({} : Sys) [.line (request (.int 1) "ping"), .read] _ rfl
      (by decide +kernel)
  · exact exists_reach_of_run _ _ anyStep ({} : Sys) [.line (request (.int 1) "initialize"),
      .line (request (.int 2) "initialize"), .read, .read] _ rfl (by decide +kernel)
  · exact exists_reach_of_run _ _ anyStep ({} : Sys) [.line (request (.int 1) "initialize"),
      .line (request (.str proxyInitId) "tools/call"), .read, .read, .answer 0 [], .answer 0 [],
      .relay, .relay] _ rfl (by decide +kernel)

end Mcp

end Dagayn
