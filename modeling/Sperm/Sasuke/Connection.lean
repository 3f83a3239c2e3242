import Mathlib.Data.Set.Finite.Basic
import Sperm.Sasuke.Client

/-!
# Requests and their connections (`Client` in `sasuke/rpc.cc`)

A reply goes to the connection that the request came from, and says no more about it. When it comes
back on a connection on which all other requests have been answered, it can only be the reply to the
last one.

* `Endpoint`, `Endpoint.step`: a client that numbers its connections and keeps in mind on which of
  them each request was sent.
* `Endpoint.Sound`: the answers are replies to requests of the same connection, and none answers two
  requests. `source id` is the request whose reply answered `id`.
* `Endpoint.Settled`: all other requests of the connection have been answered by each other's
  replies; **`Endpoint.settled_of_answered`**, **`Endpoint.source_eq`**.
* **`Endpoint.inv_step`**: a call that may not confuse its answer is answered by the reply to its
  own request.
-/

namespace Sperm.Sasuke

variable {Request Response : Type}

/-- A client, the number of its connection, and for each request that of the connection on which it
was sent. -/
structure Endpoint (Request Response : Type) where
  client : Client Request Response
  connection : ℕ
  via : List ℕ

namespace Endpoint

def new (lockStep : Bool) : Endpoint Request Response := ⟨.new lockStep, 0, []⟩

variable (env : Env) (objects : Objects Request Response)

def step (e : Endpoint Request Response) (a : Client.Act Request Response) :
    Option (Endpoint Request Response) :=
  (e.client.step env objects a).map fun c =>
    { client := c
      connection := if a.connects then e.connection + 1 else e.connection
      via := e.via ++ List.replicate (c.sent.length - e.client.sent.length) e.connection }

/-- What the peer does for a client. -/
structure Sound (source : ℕ → ℕ) (e : Endpoint Request Response) : Prop where
  same : ∀ id, e.client.answers id ≠ none → e.via[source id]? = e.via[id]?
  once : Set.InjOn source {id | e.client.answers id ≠ none}

/-- The other requests of the connection have been answered, and the replies to all of them are
used up. -/
def Settled (source : ℕ → ℕ) (e : Endpoint Request Response) (id : ℕ) : Prop :=
  ∀ j, e.via[j]? = some e.connection → j ≠ id →
    ∃ k, k ≠ id ∧ e.client.answers k ≠ none ∧ source k = j

structure Inv (source : ℕ → ℕ) (e : Endpoint Request Response) : Prop where
  client : Client.Inv env objects e.client
  length : e.via.length = e.client.sent.length
  le : ∀ c ∈ e.via, c ≤ e.connection
  pending : ∀ k, e.client.socket = some k → ∀ id, e.via[id]? = some e.connection →
    e.client.answers id = none → id ∈ k.outstanding
  waiting : ∀ c, e.client.pc = .waiting c → e.client.Alone c → ∀ id, c.id = some id →
    e.via[id]? = some e.connection ∧ e.Settled source id
  log : ∀ r ∈ e.client.log, e.client.Alone r.toCall → ∀ res, r.ret = some res →
    ∃ id, r.id = some id ∧ source id = id

theorem inv_new (source : ℕ → ℕ) (lockStep : Bool) :
    Inv env objects source (new lockStep : Endpoint Request Response) := by
  refine ⟨Client.inv_new _, rfl, ?_, ?_, ?_, ?_⟩
  · intro c hc
    cases hc
  · intro k hk
    cases hk
  · intro c hc
    cases hc
  · intro r hr
    cases hr

variable {env objects} {source : ℕ → ℕ} {e e' : Endpoint Request Response} {id : ℕ}

/-- **The reply to the last request**, where those to the others are used up. -/
theorem source_eq (h : e.Sound source) (hvia : e.via[id]? = some e.connection)
    (hid : e.client.answers id ≠ none) (hsettled : e.Settled source id) : source id = id := by
  by_contra hne
  obtain ⟨k, hk, hanswered, hsource⟩ := hsettled (source id) ((h.same id hid).trans hvia) hne
  exact hk (h.once hanswered hid hsource)

/-- **A request that is sent when all others are answered**: as many replies have come as there
were requests. -/
theorem settled_of_answered (h : e.Sound source)
    (hall : ∀ j, e.via[j]? = some e.connection → e.client.answers j ≠ none) {j : ℕ}
    (hj : e.via[j]? = some e.connection) :
    ∃ k, e.via[k]? = some e.connection ∧ source k = j := by
  have hfinite : {j | e.via[j]? = some e.connection}.Finite :=
    (Set.finite_lt_nat e.via.length).subset fun j hj => (List.getElem?_eq_some_iff.mp hj).1
  have hmaps : Set.MapsTo source {j | e.via[j]? = some e.connection}
      {j | e.via[j]? = some e.connection} := fun k hk => (h.same k (hall k hk)).trans hk
  exact ((hfinite.injOn_iff_bijOn_of_mapsTo hmaps).mp (h.once.mono hall)).surjOn hj

/-! ## What a step does to the requests -/

theorem step_of_connects {s s' : Client Request Response} {a : Client.Act Request Response}
    (ha : a.connects = true) (hs : s.step env objects a = some s') :
    s.pc = .idle ∧ ∃ o, s' = { s with socket := o } := by
  cases a with
  | connect ok =>
    rw [Client.step] at hs
    split at hs <;> cases hs
    next hpc => exact ⟨hpc, _, rfl⟩
  | reconnect ok =>
    rw [Client.step] at hs
    split at hs <;> cases hs
    next hpc => exact ⟨hpc, _, rfl⟩
  | _ => cases ha

/-- A new connection has no requests. -/
theorem Inv.connect {s' : Client Request Response} {a : Client.Act Request Response}
    (h : e.Inv env objects source) (ha : a.connects = true)
    (hs : e.client.step env objects a = some s') :
    Inv env objects source ⟨s', e.connection + 1, e.via⟩ := by
  have hclient := Client.inv_step _ _ _ h.client hs
  obtain ⟨hpc, o, rfl⟩ := step_of_connects ha hs
  refine ⟨hclient, h.length, fun c hc => (h.le c hc).trans (Nat.le_succ _), ?_, ?_, h.log⟩
  · intro k _ id hid _
    have hle := h.le _ (List.mem_of_getElem? hid)
    exact absurd hle (Nat.not_succ_le_self _)
  · intro c hc
    rw [show e.client.pc = _ from hc] at hpc
    cases hpc

/-- Nothing is sent and nothing is answered, and no call goes on. -/
theorem Inv.quiet {s' : Client Request Response} (h : e.Inv env objects source)
    (hclient : Client.Inv env objects s') (hsent : s'.sent = e.client.sent)
    (hanswers : s'.answers = e.client.answers) (hlock : s'.lockStep = e.client.lockStep)
    (hpc : ∀ c, s'.pc = .waiting c → False)
    (hsocket : ∀ k', s'.socket = some k' →
      ∃ k, e.client.socket = some k ∧ k.outstanding = k'.outstanding)
    (hlog : ∀ r ∈ s'.log, r ∈ e.client.log ∨ (e.client.Alone r.toCall → ∀ res, r.ret = some res →
      ∃ id, r.id = some id ∧ source id = id)) :
    Inv env objects source ⟨s', e.connection,
      e.via ++ List.replicate (s'.sent.length - e.client.sent.length) e.connection⟩ := by
  have halone : ∀ c, s'.Alone c → e.client.Alone c := fun c => by
    rw [Client.Alone, Client.Alone, hlock]
    exact fun hal => hal
  rw [hsent, Nat.sub_self, List.replicate_zero, List.append_nil]
  refine ⟨hclient, h.length.trans (by rw [hsent]), h.le, ?_, fun c hc => (hpc c hc).elim, ?_⟩
  · intro k' hk' id hid hnone
    obtain ⟨k, hk, hout⟩ := hsocket k' hk'
    rw [← hout]
    exact h.pending k hk id hid (hanswers ▸ hnone)
  · intro r hr hal
    rcases hlog r hr with hr | hr
    · exact h.log r hr (halone _ hal)
    · exact hr (halone _ hal)

/-- A request is sent. If its call may not confuse answers, all others have been answered. -/
theorem Inv.sent {request : Request} {response : Response} {bs : List UInt8} {k : ClientSocket}
    (h : e.Inv env objects source) (hsound : e.Sound source) (hk : e.client.socket = some k)
    (hfree : e.client.lockStep = true → k.awaiting = false) {s' : Client Request Response}
    (hclient : Client.Inv env objects s')
    (hs' : s' = { e.client with
      socket := some { k with
        awaiting := true, outstanding := k.outstanding ++ [e.client.sent.length] }
      pc := .waiting ⟨request, response, some e.client.sent.length, k.pending.isEmpty⟩
      sent := e.client.sent ++ [bs] }) :
    Inv env objects source ⟨s', e.connection,
      e.via ++ List.replicate (s'.sent.length - e.client.sent.length) e.connection⟩ := by
  subst hs'
  dsimp only
  rw [List.length_append, Nat.add_sub_cancel_left, List.length_singleton, List.replicate_one]
  have hvia : ∀ j, (e.via ++ [e.connection])[j]? = some e.connection →
      e.via[j]? = some e.connection ∨ j = e.client.sent.length := by
    intro j hj
    have hlen := h.length
    rw [List.getElem?_append] at hj
    split_ifs at hj with hlt
    · exact .inl hj
    · obtain ⟨hlt', -⟩ := List.getElem?_eq_some_iff.mp hj
      rw [List.length_singleton] at hlt'
      exact .inr (by omega)
  refine ⟨hclient, ?_, fun c hc => ?_, fun k' hk' id hid hnone => ?_, ?_, h.log⟩
  · rw [List.length_append, List.length_append, h.length]
    rfl
  · rcases List.mem_append.mp hc with hc | hc
    · exact h.le c hc
    · exact (List.mem_singleton.mp hc).le
  · cases hk'
    rcases hvia id hid with hid | rfl
    · exact List.mem_append_left _ (h.pending k hk id hid hnone)
    · exact List.mem_append_right _ (List.mem_singleton_self _)
  · rintro c hc hal id hid
    cases hc
    cases hid
    have hnil := h.client.pending_eq_nil hk hfree rfl hal
    rw [ClientSocket.pending, List.append_eq_nil_iff] at hnil
    have hall : ∀ j, e.via[j]? = some e.connection → e.client.answers j ≠ none := by
      intro j hj hnone
      have hmem := h.pending k hk j hj hnone
      rw [hnil.1] at hmem
      cases hmem
    refine ⟨?_, fun j hj hne => ?_⟩
    · rw [← h.length, List.getElem?_concat_length]
    · obtain ⟨i, hi, hsource⟩ := settled_of_answered hsound hall ((hvia j hj).resolve_right hne)
      have hlt := (List.getElem?_eq_some_iff.mp hi).1
      rw [h.length] at hlt
      exact ⟨i, hlt.ne, hall i hi, hsource⟩

/-- An answer comes. -/
theorem Inv.answer {k : ClientSocket} {id : ℕ} {m : Msg} (h : e.Inv env objects source)
    (hk : e.client.socket = some k) {s' : Client Request Response}
    (hclient : Client.Inv env objects s')
    (hs' : s' = { e.client with
      socket := some (k.answer id m)
      answers := Function.update e.client.answers id (some m) }) :
    Inv env objects source ⟨s', e.connection,
      e.via ++ List.replicate (s'.sent.length - e.client.sent.length) e.connection⟩ := by
  subst hs'
  dsimp only
  rw [Nat.sub_self, List.replicate_zero, List.append_nil]
  have hanswered : ∀ j, e.client.answers j ≠ none →
      Function.update e.client.answers id (some m) j ≠ none := by
    intro j hj
    rw [Function.update_apply]
    split_ifs
    · exact Option.some_ne_none m
    · exact hj
  refine ⟨hclient, h.length, h.le, fun k' hk' j hj hnone => ?_, fun c hc hal j hj => ?_, h.log⟩
  · cases hk'
    dsimp only at hnone
    have hne : j ≠ id := by
      rintro rfl
      rw [Function.update_self] at hnone
      cases hnone
    rw [Function.update_of_ne hne] at hnone
    exact (List.mem_erase_of_ne hne).mpr (h.pending k hk j hj hnone)
  · obtain ⟨hvia, hsettled⟩ := h.waiting c hc hal j hj
    refine ⟨hvia, fun i hi hne => ?_⟩
    obtain ⟨n, hn, hans, hsource⟩ := hsettled i hi hne
    exact ⟨n, hn, hanswered n hans, hsource⟩

/-- **Every step**: a call that returns `0` has taken the reply to its own request. -/
theorem inv_step {a : Client.Act Request Response} (h : e.Inv env objects source)
    (hsound : e.Sound source) (hs : e.step env objects a = some e') :
    e'.Inv env objects source := by
  obtain ⟨s', hs', rfl⟩ := Option.map_eq_some_iff.mp hs
  have hclient := Client.inv_step _ _ _ h.client hs'
  by_cases ha : a.connects = true
  · obtain ⟨-, o, ho⟩ := step_of_connects ha hs'
    rw [if_pos ha, ho, Nat.sub_self, List.replicate_zero, List.append_nil, ← ho]
    exact h.connect ha hs'
  rw [if_neg ha]
  have hfinished : ∀ (c : Call Request Response) (ret : Option Response),
      (e.client.Alone c → ∀ res, ret = some res → ∃ id, c.id = some id ∧ source id = id) →
        ∀ r ∈ e.client.log ++ [{ c with ret := ret }], r ∈ e.client.log ∨
          (e.client.Alone r.toCall → ∀ res, r.ret = some res →
            ∃ id, r.id = some id ∧ source id = id) := by
    intro c ret hown r hr
    rcases List.mem_append.mp hr with hr | hr
    · exact .inl hr
    · cases List.mem_singleton.mp hr
      exact .inr hown
  cases Client.step_cases hs' with
  | connect hpc ho =>
    refine h.quiet hclient rfl rfl rfl (fun c hc => ?_) (fun k' hk' => ?_) fun r hr => .inl hr
    · rw [show e.client.pc = _ from hc] at hpc
      cases hpc
    · exact absurd (ho k' hk').2 ha
  | refused hpc =>
    exact h.quiet hclient rfl rfl rfl (fun _ hc => by cases hc) (fun k' hk' => ⟨k', hk', rfl⟩)
      (hfinished _ none fun _ _ hres => by cases hres)
  | sent hpc hw hk hfree => exact h.sent hsound hk hfree hclient rfl
  | failed hpc =>
    exact h.quiet hclient rfl rfl rfl (fun _ hc => by cases hc) (fun k' hk' => ⟨k', hk', rfl⟩)
      (hfinished _ none fun _ _ hres => by cases hres)
  | @received c k id m inbox ret hpc hk hin hret =>
    refine h.quiet hclient rfl rfl rfl (fun _ hc => by cases hc) (fun k' hk' => ?_)
      (hfinished c ret ?_)
    · cases hk'
      exact ⟨k, hk, rfl⟩
    · -- what is taken is the answer to this call
      intro hal res hres
      obtain ⟨i, w, hi, -, -, hpending⟩ := h.client.waiting c hpc
      obtain rfl : id = i := hpending hal k hk id (by simp [ClientSocket.pending, hin])
      have hanswer := (h.client.socket k hk).replied (id, m) (by rw [hin]; exact List.mem_cons_self)
      obtain ⟨hvia, hsettled⟩ := h.waiting c hpc hal id hi
      have hanswered : e.client.answers id ≠ none := by
        rw [hanswer]
        exact Option.some_ne_none m
      exact ⟨id, hi, source_eq hsound hvia hanswered hsettled⟩
  | aborted ho =>
    refine h.quiet hclient rfl rfl rfl (fun _ hc => by cases hc) (fun k' hk' => ?_)
      fun r hr => .inl hr
    rcases ho with ho | ⟨k, p, inbox, hk, hin, ho⟩
    · exact ⟨k', ho ▸ hk', rfl⟩
    · cases ho.symm.trans hk'
      exact ⟨k, hk, rfl⟩
  | answer hk hid => exact h.answer hk hclient rfl

end Endpoint

end Sperm.Sasuke
