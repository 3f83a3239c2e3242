import Mathlib.Order.Basic
import Sperm.Lib.Chain

/-!
# Reversing a part of a list (`reverse-linked-list-2.cc`)

The walk has three parts: it passes over the nodes in front, turns the links of the nodes from `m`
to `n` around, and stops. Then the pieces are joined.

* `reverseBetween` with `loop`, `joinFront`: the model, where `none` stands for a write to `NULL`
  and for a loop with more than `fuel` passes.
* `loop_before`, **`loop_between`**, `loop_behind`: the parts of the walk.
* `joinBack_spec`, `joinFront_spec`: how the pieces are joined.
* **`reverseBetween_spec`**: the list with the part reversed.

Positions are not cut to `int`.
-/

namespace Sperm.Leetcode.ReverseBetween

open Chain

variable {α : Type}

/-- The links in memory, and the variables of the loop. -/
structure State (α : Type) where
  next : α → Option α
  head : Option α
  xhead : Option α
  xprev : Option α
  ytail : Option α
  yprev : Option α
  cnt : ℕ

section
variable [DecidableEq α] (m n : ℕ)

/-- The loop. -/
def loop : ℕ → State α → Option (State α)
  | 0, _ => none
  | fuel + 1, st =>
    match st.head with
    | none => some st
    | some head =>
      let cnt := st.cnt + 1
      let next := st.next head
      if cnt ≥ m ∧ cnt ≤ n then
        loop fuel { st with
          ytail := if st.ytail = none then some head else st.ytail
          next := Function.update st.next head st.yprev
          yprev := some head
          head := next
          cnt := cnt }
      else if cnt < m then
        loop fuel { st with
          xhead := if st.xhead = none then some head else st.xhead
          xprev := some head
          head := next
          cnt := cnt }
      else some { st with cnt := cnt }

/-- What is done for `m == 1` or else: `res`, and the links after it. -/
def joinFront (st : State α) : Option (Option α × (α → Option α)) :=
  if m = 1 then some (st.yprev, st.next)
  else st.xprev.map fun xprev => (st.xhead, Function.update st.next xprev st.yprev)

/-- `reverseBetween(head, m, n)`, with the links after it. -/
def reverseBetween (fuel : ℕ) (next : α → Option α) (head : Option α) :
    Option (Option α × (α → Option α)) := do
  let st ← loop m n fuel ⟨next, head, none, none, none, none, 0⟩
  let (res, next) ← joinFront m st
  let ytail ← st.ytail
  some (res, Function.update next ytail st.head)

end

variable {m n fuel cnt : ℕ} {next f : α → Option α} {head p q xhead xprev : Option α}
  {nodes A B C done : List α} {x y : α} {st : State α}

theorem head?_concat (l : List α) (x : α) :
    (l ++ [x]).head? = if l.head? = none then some x else l.head? := by
  cases l with
  | nil => rfl
  | cons y l => rfl

variable [DecidableEq α]

/-! ## The walk -/

/-- **In front**, nothing is written. -/
theorem loop_before (n fuel : ℕ) (done : List α) (h : Seg next p A q)
    (hm : done.length + A.length < m) :
    loop m n (A.length + fuel) ⟨next, p, done.head?, done.getLast?, none, none, done.length⟩ =
      loop m n fuel ⟨next, q, (done ++ A).head?, (done ++ A).getLast?, none, none,
        (done ++ A).length⟩ := by
  induction A generalizing p done with
  | nil =>
    obtain rfl : p = q := h
    rw [List.append_nil, List.length_nil, Nat.zero_add]
  | cons x A ih =>
    obtain ⟨rfl, h⟩ := h
    rw [List.length_cons] at hm ⊢
    have hlen : (done ++ [x]).length = done.length + 1 := List.length_append
    have hrest := ih (done ++ [x]) h (by omega)
    rw [List.append_assoc, List.singleton_append, head?_concat, List.getLast?_concat, hlen] at hrest
    rw [Nat.add_right_comm, loop]
    dsimp only
    rw [if_neg (by omega), if_pos (by omega)]
    exact hrest

/-- **From `m` to `n`**, the links are turned around, and no others are written. -/
theorem loop_between (fuel cnt : ℕ) (xhead xprev : Option α) (done : List α) (h : Seg f p B q)
    (hdone : Seg f done.getLast? done.reverse none) (hnodup : (done ++ B).Nodup)
    (hm : m ≤ cnt + 1) (hn : cnt + B.length ≤ n) :
    ∃ f', loop m n (B.length + fuel) ⟨f, p, xhead, xprev, done.head?, done.getLast?, cnt⟩ =
        loop m n fuel ⟨f', q, xhead, xprev, (done ++ B).head?, (done ++ B).getLast?,
          cnt + B.length⟩ ∧
      Seg f' (done ++ B).getLast? (done ++ B).reverse none ∧ ∀ y, y ∉ B → f' y = f y := by
  induction B generalizing f p done cnt with
  | nil =>
    obtain rfl : p = q := h
    rw [List.append_nil, List.length_nil, Nat.zero_add]
    exact ⟨f, rfl, hdone, fun y _ => rfl⟩
  | cons x B ih =>
    obtain ⟨rfl, h⟩ := h
    rw [List.length_cons] at hn ⊢
    have hsplit : done ++ x :: B = (done ++ [x]) ++ B := by simp
    rw [hsplit] at hnodup
    obtain ⟨hold, -, hapart⟩ := List.nodup_append.mp hnodup
    have hxdone : x ∉ done := fun hmem =>
      (List.nodup_append.mp hold).2.2 x hmem x (List.mem_singleton_self x) rfl
    have hxB : x ∉ B := fun hmem => hapart x (by simp) x hmem rfl
    -- the new link is that to the part that has been turned around
    have hturned : Seg (Function.update f x done.getLast?) (done ++ [x]).getLast?
        (done ++ [x]).reverse none := by
      rw [List.getLast?_concat, List.reverse_append, List.reverse_singleton, List.singleton_append,
        seg_cons, Function.update_self, seg_update (by simpa using hxdone)]
      exact ⟨rfl, hdone⟩
    obtain ⟨f', hloop, hseg, hframe⟩ := ih (cnt + 1) (done ++ [x]) ((seg_update hxB).mpr h) hturned
      hnodup (by omega) (by omega)
    refine ⟨f', ?_, ?_, fun y hy => ?_⟩
    · rw [hsplit, Nat.add_right_comm, loop]
      dsimp only
      rw [if_pos ⟨hm, by omega⟩]
      rw [head?_concat, List.getLast?_concat, Nat.add_assoc, Nat.add_comm 1] at hloop
      exact hloop
    · rwa [hsplit]
    · rw [List.mem_cons, not_or] at hy
      rw [hframe y hy.2, Function.update_of_ne hy.1]

/-- **Behind**, the walk stops. -/
theorem loop_behind (fuel : ℕ) (f : α → Option α) (p xhead xprev q head : Option α)
    (hmn : m ≤ n) :
    ∃ cnt', loop m n (fuel + 1) ⟨f, p, xhead, xprev, q, head, n⟩ =
      some ⟨f, p, xhead, xprev, q, head, cnt'⟩ := by
  cases p with
  | none => exact ⟨n, rfl⟩
  | some x =>
    refine ⟨n + 1, ?_⟩
    rw [loop]
    dsimp only
    rw [if_neg (by omega), if_neg (by omega)]

/-! ## The pieces -/

theorem joinBack_spec (hB : Seg f B.getLast? B.reverse none) (hC : Seg f q C none)
    (hnodup : (B ++ C).Nodup) (hy : B.head? = some y) :
    Seg (Function.update f y q) B.getLast? (B.reverse ++ C) none := by
  obtain ⟨hnodupB, -, hapart⟩ := List.nodup_append.mp hnodup
  have hyC : y ∉ C := fun hmem => hapart y (List.mem_of_head? hy) y hmem rfl
  refine seg_append.mpr ⟨q, ?_, (seg_update hyC).mpr hC⟩
  exact hB.redirect (List.nodup_reverse.mpr hnodupB) (by rw [List.getLast?_reverse, hy])

/-- The nodes in front get the part that is turned around behind them. -/
theorem joinFront_spec (hA : Seg f p A q) (hnodup : A.Nodup) (hm : A.length + 1 = m)
    (head ytail yprev : Option α) (cnt : ℕ) :
    ∃ res g, joinFront m ⟨f, head, A.head?, A.getLast?, ytail, yprev, cnt⟩ = some (res, g) ∧
      Seg g res A yprev ∧ ∀ y, y ∉ A → g y = f y := by
  rcases List.eq_nil_or_concat A with rfl | ⟨us, a, hconcat⟩
  · obtain rfl : 1 = m := hm
    exact ⟨yprev, f, rfl, rfl, fun y _ => rfl⟩
  · rw [List.concat_eq_append] at hconcat
    have ha : A.getLast? = some a := by rw [hconcat, List.getLast?_concat]
    have hm1 : m ≠ 1 := by
      rw [hconcat, List.length_append, List.length_singleton] at hm
      omega
    refine ⟨A.head?, Function.update f a yprev, ?_, ?_, fun y hy => ?_⟩
    · rw [joinFront, if_neg hm1, ha]
      rfl
    · have hhead : p = A.head? := by
        cases A with
        | nil => cases ha
        | cons x A => exact hA.1
      rw [← hhead]
      exact hA.redirect hnodup ha
    · have hya : y ≠ a := fun heq => hy (heq ▸ List.mem_of_getLast? ha)
      exact Function.update_of_ne hya _ _

/-- **The walk** turns the links of `B` around. -/
theorem walk_spec (hA : Seg next head A p) (hB : Seg next p B q) (hnodup : B.Nodup)
    (hm : A.length + 1 = m) (hn : A.length + B.length = n) (hmn : m ≤ n) (hfuel : n < fuel) :
    ∃ f cnt, loop m n fuel ⟨next, head, none, none, none, none, 0⟩ =
        some ⟨f, q, A.head?, A.getLast?, B.head?, B.getLast?, cnt⟩ ∧
      Seg f B.getLast? B.reverse none ∧ ∀ y, y ∉ B → f y = next y := by
  obtain ⟨k, rfl⟩ := Nat.exists_eq_add_of_lt hfuel
  have hlen : ([] : List α).length + A.length < m := by
    rw [List.length_nil]
    omega
  have hbefore := loop_before n (B.length + (k + 1)) [] hA hlen
  obtain ⟨f, hbetween, hturned, hframe⟩ := loop_between (m := m) (k + 1) A.length A.head?
    A.getLast? [] hB rfl hnodup (by omega) (Nat.le_of_eq hn)
  obtain ⟨cnt, hbehind⟩ := loop_behind k f q A.head? A.getLast? B.head? B.getLast? hmn
  have hsum : n + k + 1 = A.length + (B.length + (k + 1)) := by omega
  refine ⟨f, cnt, ?_, hturned, hframe⟩
  rw [hsum]
  refine hbefore.trans (hbetween.trans ?_)
  rw [hn]
  exact hbehind

/-- **The list** with the nodes from `A` on turned around up to `C`. -/
theorem reverseBetween_append (h : Seg next head (A ++ (B ++ C)) none) (hB : B ≠ [])
    (hm : A.length + 1 = m) (hn : A.length + B.length = n) (hfuel : n < fuel) :
    ∃ res next', reverseBetween m n fuel next head = some (res, next') ∧
      Seg next' res (A ++ (B.reverse ++ C)) none := by
  obtain ⟨hnodupA, hnodupBC, hapart⟩ := List.nodup_append.mp h.nodup
  obtain ⟨hnodupB, -, hapartBC⟩ := List.nodup_append.mp hnodupBC
  have hmem : ∀ y ∈ B ++ C, y ∉ A := fun y hy hyA => hapart y hyA y hy rfl
  obtain ⟨p, hsegA, hsegBC⟩ := seg_append.mp h
  obtain ⟨q, hsegB, hsegC⟩ := seg_append.mp hsegBC
  obtain ⟨y, hy⟩ : ∃ y, B.head? = some y := by
    cases B with
    | nil => exact absurd rfl hB
    | cons y B => exact ⟨y, rfl⟩
  have hyA : y ∉ A := hmem y (List.mem_append_left C (List.mem_of_head? hy))
  have hpos := List.length_pos_iff.mpr hB
  obtain ⟨f, cnt, hwalk, hturned, hframe⟩ :=
    walk_spec hsegA hsegB hnodupB hm hn (by omega) hfuel
  have hfA : Seg f head A p := (seg_congr fun y hyA => hframe y fun hyB =>
    hmem y (List.mem_append_left C hyB) hyA).mpr hsegA
  have hfC : Seg f q C none := (seg_congr fun y hyC => hframe y fun hyB =>
    hapartBC y hyB y hyC rfl).mpr hsegC
  obtain ⟨res, g, hfront, hgA, hgframe⟩ :=
    joinFront_spec hfA hnodupA hm q B.head? B.getLast? cnt
  have hgB : Seg g B.getLast? B.reverse none := (seg_congr fun y hyB =>
    hgframe y (hmem y (List.mem_append_left C (List.mem_reverse.mp hyB)))).mpr hturned
  have hgC : Seg g q C none := (seg_congr fun y hyC =>
    hgframe y (hmem y (List.mem_append_right B hyC))).mpr hfC
  refine ⟨res, Function.update g y q, ?_, seg_append.mpr ⟨B.getLast?, (seg_update hyA).mpr hgA, ?_⟩⟩
  · rw [reverseBetween, hwalk, Option.bind_eq_bind, Option.bind_some, hfront, hy]
    rfl
  · exact joinBack_spec hgB hgC hnodupBC hy

/-- **The list** with the nodes from `m` to `n` in reverse order. -/
theorem reverseBetween_spec (next : α → Option α) (head : Option α) (nodes : List α)
    (h : Seg next head nodes none) (m n : ℕ) (hm : 1 ≤ m) (hmn : m ≤ n) (hn : n ≤ nodes.length) :
    ∀ fuel, nodes.length < fuel → ∃ res next',
      reverseBetween m n fuel next head = some (res, next') ∧
        Seg next' res (nodes.take (m - 1) ++
          (((nodes.drop (m - 1)).take (n - (m - 1))).reverse ++ nodes.drop n)) none := by
  intro fuel hfuel
  have hdrop : (nodes.drop (m - 1)).drop (n - (m - 1)) = nodes.drop n := by
    rw [List.drop_drop]
    congr 1
    omega
  have hsplit : nodes.take (m - 1) ++ ((nodes.drop (m - 1)).take (n - (m - 1)) ++ nodes.drop n) =
      nodes := by
    rw [← hdrop, List.take_append_drop, List.take_append_drop]
  have hlenA : (nodes.take (m - 1)).length = m - 1 := by
    rw [List.length_take]
    omega
  have hlenB : ((nodes.drop (m - 1)).take (n - (m - 1))).length = n - (m - 1) := by
    rw [List.length_take, List.length_drop]
    omega
  rw [← hsplit] at h
  refine reverseBetween_append h ?_ (by omega) (by omega) (by omega)
  refine List.ne_nil_of_length_pos ?_
  omega

/-- Three nodes, of which the last two change places. -/
theorem reverseBetween_three :
    Seg (fun x : ℕ => if x < 2 then some (x + 1) else none) (some 0) [0, 1, 2] none ∧
      ∃ res next', reverseBetween 2 3 4 (fun x => if x < 2 then some (x + 1) else none) (some 0) =
          some (res, next') ∧ Seg next' res [0, 2, 1] none := by
  have hseg : Seg (fun x : ℕ => if x < 2 then some (x + 1) else none) (some 0) [0, 1, 2] none := by
    simp
  refine ⟨hseg, ?_⟩
  exact reverseBetween_spec _ _ _ hseg 2 3 (by decide) (by decide) (by decide) 4 (by decide)

end Sperm.Leetcode.ReverseBetween
