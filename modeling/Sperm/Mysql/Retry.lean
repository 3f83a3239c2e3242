import Sperm.Mysql.SQLInjector

/-!
# `Injector.exec` (`mysql/SQLInjector.java`)

A statement that fails is tried once more over a new connection, unless the server calls it a
duplicate. An attempt may fail before the server has got the statement, or after it.

* `Table`: the server, for statements that insert rows under a unique key.
* `Attempt`, `repeatableExec`; `afterExec`: what `exec` makes of the outcome.
* `Session`, `Session.step`: the threads of `SQLInjector.lean` with `exec` in its attempts.
* `run_base`: they do what the threads there do.
* **`exec_once`**: no statement is executed twice, and none is missed unless both of its attempts
  fail before the server.
-/

namespace Sperm.SQLInjector

open StepRun

variable {Tid Db α : Type}

/-- A table with a unique key. A statement inserts its row; it is refused exactly when a row with
its key is there. -/
structure Table (Db α : Type) where
  execute : Db → α → Except String Db
  Has : Db → α → Prop
  has_of_ok : ∀ {db db' sql}, execute db sql = .ok db' → Has db' sql
  has_mono : ∀ {db db' sql x}, execute db sql = .ok db' → Has db x → Has db' x
  error_iff : ∀ db sql, (∃ m, execute db sql = .error m) ↔ Has db sql

/-- What comes of one `repeatableExec`, with the message of the exception. -/
inductive Attempt where
  /-- `getConnection` throws. -/
  | refused (message : Option String)
  /-- The statement does not come to the server. -/
  | unreached (message : Option String)
  /-- The server answers. -/
  | answered
  /-- The server has dealt with the statement, but its answer is lost, or `close` throws. -/
  | cut (message : Option String)

/-- The database, what was executed there, whether the connection is kept, and the outcome. -/
structure Tried (Db α : Type) where
  db : Db
  applied : List α
  connected : Bool
  outcome : Except (Option String) Unit

/-- `repeatableExec(sql)`. -/
def repeatableExec (T : Table Db α) (connected : Bool) (db : Db) (sql : α) :
    Attempt → Option (Tried Db α)
  | .refused m => if connected then none else some ⟨db, [], false, .error m⟩
  | .unreached m => some ⟨db, [], true, .error m⟩
  | .answered =>
    match T.execute db sql with
    | .ok db' => some ⟨db', [sql], true, .ok ()⟩
    | .error m => some ⟨db, [], true, .error (some m)⟩
  | .cut m =>
    match T.execute db sql with
    | .ok db' => some ⟨db', [sql], true, .error m⟩
    | .error _ => some ⟨db, [], true, .error m⟩

/-- `startsWith("Duplicate")`. -/
def isDuplicate (message : String) : Bool := "Duplicate".toList.isPrefixOf message.toList

/-- What `exec` does behind an attempt. -/
inductive After where
  | done (throws : Bool)
  /-- `connection.close()`, `connection = null` and the second attempt. -/
  | retry
  deriving DecidableEq

/-- `exec(sql)` behind its first attempt, or its second one. `getMessage()` may be `null`. -/
def afterExec (second : Bool) : Except (Option String) Unit → After
  | .ok () => .done false
  | .error none => .done (!second)
  | .error (some m) => if second || isDuplicate m then .done false else .retry

/-- The threads, the database, and for every thread whether `connection` is not `null` and whether
it is at its second attempt; `applied` is kept for the statements only. -/
structure Session (Tid Db α : Type) where
  base : State Tid α
  db : Db
  connected : Tid → Bool
  second : Tid → Bool
  applied : List α

namespace Session

inductive Act (Tid : Type) where
  /-- Anything but `exec`. -/
  | other (a : SQLInjector.Act Tid)
  | attempt (t : Tid) (o : Attempt)

def new [Fintype Tid] (capacity : ℕ) (file : List α) (db : Db) : Session Tid Db α :=
  ⟨.new capacity file, db, fun _ => false, fun _ => false, []⟩

/-- An attempt that fails before the server is made again. -/
def Reaches (s : Session Tid Db α) : Act Tid → Prop
  | .attempt t (.refused m) => afterExec (s.second t) (.error m) = .retry
  | .attempt t (.unreached m) => afterExec (s.second t) (.error m) = .retry
  | _ => True

instance (s : Session Tid Db α) (a : Act Tid) : Decidable (s.Reaches a) :=
  match a with
  | .attempt t (.refused _) => inferInstanceAs (Decidable (afterExec (s.second t) _ = _))
  | .attempt t (.unreached _) => inferInstanceAs (Decidable (afterExec (s.second t) _ = _))
  | .attempt _ .answered | .attempt _ (.cut _) | .other _ => .isTrue trivial

/-! ## One attempt -/

variable {T : Table Db α} {s s' : Session Tid Db α}

/-- The server leaves everything as it is, since the attempt fails before it or the row is there, or
it executes the statement. -/
theorem repeatableExec_spec {connected : Bool} {db : Db} {sql : α} {o : Attempt} {r : Tried Db α}
    (h : repeatableExec T connected db sql o = some r) :
    (r.applied = [] ∧ r.db = db ∧
        ((∃ m, r.outcome = .error m ∧ (o = .refused m ∨ o = .unreached m)) ∨ T.Has db sql)) ∨
      (r.applied = [sql] ∧ T.execute db sql = .ok r.db) := by
  cases o with
  | refused m =>
    rw [repeatableExec] at h
    split_ifs at h
    cases h
    exact .inl ⟨rfl, rfl, .inl ⟨m, rfl, .inl rfl⟩⟩
  | unreached m =>
    cases h
    exact .inl ⟨rfl, rfl, .inl ⟨m, rfl, .inr rfl⟩⟩
  | answered =>
    rw [repeatableExec] at h
    split at h
    · next hdb => cases h; exact .inr ⟨rfl, hdb⟩
    · next hdb => cases h; exact .inl ⟨rfl, rfl, .inr ((T.error_iff _ _).mp ⟨_, hdb⟩)⟩
  | cut m =>
    rw [repeatableExec] at h
    split at h
    · next hdb => cases h; exact .inr ⟨rfl, hdb⟩
    · next hdb => cases h; exact .inl ⟨rfl, rfl, .inr ((T.error_iff _ _).mp ⟨_, hdb⟩)⟩

/-- Behind an attempt that comes to the server the row is there, whoever has inserted it. -/
theorem has_of_done {t : Tid} {sql : α} {o : Attempt} {r : Tried Db α} {throws : Bool}
    (hG : s.Reaches (.attempt t o))
    (h : repeatableExec T (s.connected t) s.db sql o = some r)
    (hdone : afterExec (s.second t) r.outcome = .done throws) : T.Has r.db sql := by
  rcases repeatableExec_spec h with ⟨-, hdb, ⟨m, hm, hfail⟩ | hhas⟩ | ⟨-, hdb⟩
  · -- an attempt that fails before the server is not the last one
    have hretry : afterExec (s.second t) (.error m) = .retry := by
      rcases hfail with rfl | rfl <;> exact hG
    rw [hm, hretry] at hdone
    cases hdone
  · exact hdb ▸ hhas
  · exact T.has_of_ok hdb

/-! ## Steps -/

variable [DecidableEq Tid]

def step (T : Table Db α) (s : Session Tid Db α) : Act Tid → Option (Session Tid Db α)
  | .other (.exec _ _) => none
  | .other a => (SQLInjector.step s.base a).map fun b => { s with base := b }
  | .attempt t o =>
    match s.base.pc t with
    | .executing sql =>
      (repeatableExec T (s.connected t) s.db sql o).bind fun r =>
        match afterExec (s.second t) r.outcome with
        | .done throws =>
          (SQLInjector.step s.base (.exec t throws)).map fun b =>
            { base := b, db := r.db, applied := s.applied ++ r.applied
              connected := Function.update s.connected t r.connected
              second := Function.update s.second t false }
        | .retry =>
          some
            { base := s.base, db := r.db, applied := s.applied ++ r.applied
              connected := Function.update s.connected t false
              second := Function.update s.second t true }
    | _ => none

/-- The steps by what they do to the threads and to the database. -/
inductive Step (T : Table Db α) (s : Session Tid Db α) : Act Tid → Session Tid Db α → Prop where
  | other {a : SQLInjector.Act Tid} {b : State Tid α} (hb : SQLInjector.step s.base a = some b)
      (hexec : b.executed = s.base.executed) : Step T s (.other a) { s with base := b }
  | done {t : Tid} {o : Attempt} {sql : α} {r : Tried Db α} {throws : Bool} {b : State Tid α}
      (hpc : s.base.pc t = .executing sql)
      (hr : repeatableExec T (s.connected t) s.db sql o = some r)
      (hafter : afterExec (s.second t) r.outcome = .done throws)
      (hb : SQLInjector.step s.base (.exec t throws) = some b)
      (hexec : b.executed = Function.update s.base.executed t (s.base.executed t ++ [sql])) :
      Step T s (.attempt t o)
        { base := b, db := r.db, applied := s.applied ++ r.applied
          connected := Function.update s.connected t r.connected
          second := Function.update s.second t false }
  | retry {t : Tid} {o : Attempt} {sql : α} {r : Tried Db α}
      (hpc : s.base.pc t = .executing sql)
      (hr : repeatableExec T (s.connected t) s.db sql o = some r)
      (hafter : afterExec (s.second t) r.outcome = .retry) :
      Step T s (.attempt t o)
        { base := s.base, db := r.db, applied := s.applied ++ r.applied
          connected := Function.update s.connected t false
          second := Function.update s.second t true }

theorem executed_of_ne_exec {a : SQLInjector.Act Tid} {b b' : State Tid α}
    (ha : ∀ t throws, a ≠ .exec t throws) (h : SQLInjector.step b a = some b') :
    b'.executed = b.executed := by
  cases SQLInjector.step_cases h with
  | exec hp => exact absurd rfl (ha _ _)
  | _ => rfl

theorem step_cases {a : Act Tid} (h : s.step T a = some s') : Step T s a s' := by
  cases a with
  | other a =>
    have hmap : ∀ b, SQLInjector.step s.base a = some b → (∀ t throws, a ≠ .exec t throws) →
        Step T s (.other a) { s with base := b } :=
      fun b hb ha => .other hb (executed_of_ne_exec ha hb)
    cases a with
    | exec t throws => cases h
    | _ =>
      obtain ⟨b, hb, rfl⟩ := Option.map_eq_some_iff.mp h
      exact hmap b hb (by simp)
  | attempt t o =>
    rw [step] at h
    split at h
    · next sql hpc =>
      obtain ⟨r, hr, h⟩ := Option.bind_eq_some_iff.mp h
      split at h
      · next throws hafter =>
        obtain ⟨b, hb, rfl⟩ := Option.map_eq_some_iff.mp h
        refine .done hpc hr hafter hb ?_
        cases SQLInjector.step_cases hb with
        | exec hp =>
          rw [hpc] at hp
          cases hp
          rfl
      · next hafter =>
        cases h
        exact .retry hpc hr hafter
    · cases h

/-! ## Runs -/

/-- The threads take the steps of `SQLInjector.lean`. -/
theorem step_base {a : Act Tid} (h : Step T s a s') :
    s'.base = s.base ∨ ∃ a', SQLInjector.step s.base a' = some s'.base := by
  cases h with
  | other hb _ => exact .inr ⟨_, hb⟩
  | done _ _ _ hb _ => exact .inr ⟨_, hb⟩
  | retry => exact .inl rfl

variable [Fintype Tid]

theorem run_base {capacity : ℕ} {file : List α} {db₀ : Db} {as : List (Act Tid)}
    (hrun : run (step T) (new capacity file db₀) as = some s) :
    CanReach SQLInjector.step (.new capacity file) s.base := by
  have hkeep : ∀ (s₁ : Session Tid Db α) a s₂,
      CanReach SQLInjector.step (.new capacity file) s₁.base → s₁.step T a = some s₂ →
        CanReach SQLInjector.step (.new capacity file) s₂.base := by
    intro s₁ a s₂ h hstep
    rcases step_base (step_cases hstep) with heq | ⟨a', ha'⟩
    · exact heq ▸ h
    · exact h.trans (.head ha' (.refl _))
  exact invariant_of_run hkeep hrun (.refl _)

/-- What was executed was new in the table and is there now, and was executed once. -/
structure Inv (T : Table Db α) (file : List α) (db₀ : Db) (s : Session Tid Db α) : Prop where
  base : SQLInjector.Inv file s.base
  old : ∀ x, T.Has db₀ x → T.Has s.db x
  applied : ∀ sql ∈ s.applied, sql ∈ file ∧ ¬ T.Has db₀ sql ∧ T.Has s.db sql
  nodup : s.applied.Nodup

variable {file : List α} {db₀ : Db}

theorem inv_new (capacity : ℕ) :
    Inv T file db₀ (new capacity file db₀ : Session Tid Db α) where
  base := SQLInjector.inv_new capacity file
  old _ := id
  applied _ h := absurd h List.not_mem_nil
  nodup := .nil

theorem mem_file_of_executing {b : State Tid α} (h : SQLInjector.Inv file b) {t : Tid} {sql : α}
    (hpc : b.pc t = .executing sql) : sql ∈ file := by
  have htaken := h.2.1 t
  rw [hpc] at htaken
  have hmem : sql ∈ (b.taken.filter fun p => p.1 = t).map Prod.snd :=
    htaken ▸ List.mem_append_right _ List.mem_cons_self
  obtain ⟨p, hp, rfl⟩ := List.mem_map.mp hmem
  rw [← h.1.1]
  exact List.mem_append_left _ (List.mem_append_left _
    (List.mem_map_of_mem (List.mem_of_mem_filter hp)))

/-- **One attempt** executes nothing a second time. -/
theorem Inv.attempt (h : Inv T file db₀ s) {t : Tid} {o : Attempt} {sql : α} {r : Tried Db α}
    (hpc : s.base.pc t = .executing sql)
    (hr : repeatableExec T (s.connected t) s.db sql o = some r) :
    (∀ x, T.Has s.db x → T.Has r.db x) ∧
      (∀ x ∈ s.applied ++ r.applied, x ∈ file ∧ ¬ T.Has db₀ x ∧ T.Has r.db x) ∧
      (s.applied ++ r.applied).Nodup := by
  rcases repeatableExec_spec hr with ⟨hnone, hdb, -⟩ | ⟨hone, hdb⟩
  · rw [hnone, hdb, List.append_nil]
    exact ⟨fun _ => id, h.applied, h.nodup⟩
  · have hnew : ¬ T.Has s.db sql := by
      intro hold
      obtain ⟨m, hm⟩ := (T.error_iff _ _).mpr hold
      rw [hm] at hdb
      cases hdb
    rw [hone]
    refine ⟨fun x => T.has_mono hdb, fun x hx => ?_, ?_⟩
    · rcases List.mem_append.mp hx with hx | hx
      · obtain ⟨hfile, h₀, hhas⟩ := h.applied x hx
        exact ⟨hfile, h₀, T.has_mono hdb hhas⟩
      · obtain rfl := List.mem_singleton.mp hx
        exact ⟨mem_file_of_executing h.base hpc, fun h₀ => hnew (h.old _ h₀), T.has_of_ok hdb⟩
    · rw [← List.concat_eq_append, List.nodup_concat]
      exact ⟨fun hmem => hnew (h.applied sql hmem).2.2, h.nodup⟩

theorem inv_step {a : Act Tid} (h : Inv T file db₀ s) (hs : Step T s a s') :
    Inv T file db₀ s' := by
  cases hs with
  | other hb _ => exact ⟨SQLInjector.inv_step _ _ _ h.base hb, h.old, h.applied, h.nodup⟩
  | done hpc hr _ hb _ =>
    obtain ⟨hmono, happlied, hnodup⟩ := h.attempt hpc hr
    exact ⟨SQLInjector.inv_step _ _ _ h.base hb, fun x h₀ => hmono x (h.old x h₀), happlied, hnodup⟩
  | retry hpc hr _ =>
    obtain ⟨hmono, happlied, hnodup⟩ := h.attempt hpc hr
    exact ⟨h.base, fun x h₀ => hmono x (h.old x h₀), happlied, hnodup⟩

/-- Every statement that a thread is done with is in the table. -/
def AllThere (T : Table Db α) (s : Session Tid Db α) : Prop :=
  ∀ t, ∀ sql ∈ s.base.executed t, T.Has s.db sql

theorem allThere_step {a : Act Tid} (hinv : Inv T file db₀ s) (hG : s.Reaches a)
    (h : AllThere T s) (hs : Step T s a s') : AllThere T s' := by
  cases hs with
  | other _ hexec =>
    intro t sql hsql
    exact h t sql (hexec ▸ hsql)
  | @done t o sql r throws b hpc hr hafter hb hexec =>
    have hmono := (hinv.attempt hpc hr).1
    intro u x hx
    simp only [hexec] at hx
    by_cases hu : u = t
    · subst hu
      rw [Function.update_self] at hx
      rcases List.mem_append.mp hx with hx | hx
      · exact hmono x (h u x hx)
      · obtain rfl := List.mem_singleton.mp hx
        exact has_of_done hG hr hafter
    · rw [Function.update_of_ne hu] at hx
      exact hmono x (h u x hx)
  | retry hpc hr _ =>
    intro u x hx
    exact (hinv.attempt hpc hr).1 x (h u x hx)

/-- **Every line once.** In every run, whatever attempts fail and at which point, no statement is
executed twice, and only lines of the file that were not in the table are. If every attempt that
fails before the server is made again, then the table has every line that the threads are done with,
and after a complete injection every line of the file. -/
theorem exec_once {capacity : ℕ} {as : List (Act Tid)}
    (hrun : run (step T) (new capacity file db₀) as = some s) :
    CanReach SQLInjector.step (.new capacity file) s.base ∧
      s.applied.Nodup ∧ (∀ sql ∈ s.applied, sql ∈ file ∧ ¬ T.Has db₀ sql ∧ T.Has s.db sql) ∧
      (Guarded (step T) Reaches (new capacity file db₀) as → AllThere T s ∧
        (Delivered file s.base → ∀ sql ∈ file, T.Has s.db sql)) := by
  have hinv : Inv T file db₀ s := invariant_of_run
    (fun s₁ a s₂ h hstep => inv_step h (step_cases hstep)) hrun (inv_new capacity)
  refine ⟨run_base hrun, hinv.nodup, hinv.applied, fun hG => ?_⟩
  obtain ⟨-, hthere⟩ : Inv T file db₀ s ∧ AllThere T s := invariant_of_guarded
    (I := fun s => Inv T file db₀ s ∧ AllThere T s)
    (fun s₁ a s₂ hG h hstep => ⟨inv_step h.1 (step_cases hstep),
      allThere_step h.1 hG h.2 (step_cases hstep)⟩)
    hrun hG ⟨inv_new capacity, fun _ _ h => absurd h List.not_mem_nil⟩
  refine ⟨hthere, fun hdelivered sql hsql => ?_⟩
  obtain ⟨htaken, hexecuted, -⟩ := hdelivered
  rw [← htaken] at hsql
  obtain ⟨⟨t, x⟩, hp, rfl⟩ := List.mem_map.mp hsql
  refine hthere t x ?_
  rw [hexecuted]
  exact List.mem_map.mpr ⟨(t, x), List.mem_filter.mpr ⟨hp, by simp⟩, rfl⟩

/-- A table of keys. -/
def keys : Table (List ℕ) ℕ where
  execute db key := if key ∈ db then .error "Duplicate entry" else .ok (key :: db)
  Has db key := key ∈ db
  has_of_ok h := by split_ifs at h; cases h; exact List.mem_cons_self
  has_mono h hx := by split_ifs at h; cases h; exact List.mem_cons_of_mem _ hx
  error_iff db key := by by_cases hkey : key ∈ db <;> simp [hkey]

/-- The answer to the first attempt is lost, and the second statement is lost on its way; both are
tried again. -/
def lossyRun : List (Act Unit) :=
  [.other .put, .other .put, .other .setExit, .other (.poll ()),
    .attempt () (.cut (some "Communications link failure")), .attempt () .answered,
    .other (.poll ()), .attempt () (.unreached (some "Broken pipe")), .attempt () .answered,
    .other (.poll ()), .other (.readExit ()), .other (.decrement ()), .other .checkRefCount]

theorem exec_once_lossyRun :
    ∃ s, run (step keys) (new 2 [7, 8] []) lossyRun = some s ∧ s.base.returned = true ∧
      s.applied = [7, 8] ∧ s.applied.Nodup ∧ ∀ key ∈ [7, 8], key ∈ s.db := by
  have hrun : ∃ s, run (step keys) (new 2 [7, 8] []) lossyRun = some s ∧
      s.base.returned = true ∧ s.applied = [7, 8] ∧ Delivered [7, 8] s.base :=
    ⟨_, rfl, rfl, rfl, rfl, fun _ => rfl, rfl⟩
  obtain ⟨s, hs, hreturned, happlied, hdelivered⟩ := hrun
  obtain ⟨-, hnodup, -, hthere⟩ := exec_once hs
  exact ⟨s, hs, hreturned, happlied, hnodup, (hthere (by decide)).2 hdelivered⟩

end Session

end Sperm.SQLInjector
