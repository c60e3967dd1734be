import Mathlib

/-!
# The check of the toppings when a customer arrives

`ingreadient_checker` of concurrency/2.c, which decides whether a customer is let in. It
goes through the orders of the customer, and for each of their toppings looks up a name and
its stock. The name is that of entry `cst` of `order_list`, where `cst` is the number of the
customer, and not that of the order it is at. So the check goes by the toppings of whatever
order has that index (`admission_iff`).

`topping_stock` is read through a pointer, as `int`s from address 0 on; `give_index` returns
-1 for a name that is not in `topping_list`.
-/

namespace CowPbs

/-- `struct ordernode`, as far as the check reads it. Each of the `toppings` is a string,
also from `totaltoppings` on, where nothing was stored. -/
structure OrderNode where
  custNo : ℤ
  totaltoppings : ℕ
  toppings : ℕ → String

/-- What the check reads besides the stock. `order_list` is an array of entries. -/
structure OrderList where
  orderList : ℕ → OrderNode
  totalorders : ℕ
  toppingList : List String

namespace OrderList

variable (o : OrderList)

/-- `give_index` in `topping_list`. -/
def giveIndex (string : String) : ℤ :=
  match o.toppingList.findIdx? (· == string) with
  | some i => i
  | none => -1

/-- The topping `j` of the order `i`, by its index. -/
def tindex (i j : ℕ) : ℤ :=
  o.giveIndex ((o.orderList i).toppings j)

/-- The inner loop : the toppings `js` of an order of the customer `cst`. `none` when it
goes on. -/
def toppingsLoop (topStock : ℤ → ℤ) (cst : ℕ) : List ℕ → Option ℤ
  | [] => none
  | j :: js =>
    let tindex := o.tindex cst j
    if topStock tindex = 0 then some 0
    else if topStock tindex > 0 ∨ topStock tindex = -1 then toppingsLoop topStock cst js
    else if topStock tindex < -1 then some 0
    else toppingsLoop topStock cst js

/-- The outer loop : the orders `is`. -/
def ordersLoop (topStock : ℤ → ℤ) (cst : ℕ) : List ℕ → Option ℤ
  | [] => none
  | i :: is =>
    if (o.orderList i).custNo = cst then
      match o.toppingsLoop topStock cst (List.range (o.orderList i).totaltoppings) with
      | some r => some r
      | none => ordersLoop topStock cst is
    else ordersLoop topStock cst is

/-- `ingreadient_checker`. -/
def ingreadientChecker (completed : Bool) (topStock : ℤ → ℤ) (cst : ℕ) : ℤ :=
  if completed then -1
  else (o.ordersLoop topStock cst (List.range o.totalorders)).getD 1

/-! ## The toppings of a customer -/

/-- The topping with index `t` is of an order of the customer `c`. -/
def Ordered (c : ℤ) (t : ℤ) : Prop :=
  ∃ i j, (o.orderList i).custNo = c ∧ j < (o.orderList i).totaltoppings ∧ o.tindex i j = t

/-- The topping is of orders of other customers only. -/
def Foreign (c t : ℤ) : Prop :=
  ¬o.Ordered c t ∧ ∃ c' ≠ c, o.Ordered c' t

/-- The topping whose stock the check for the customer `cst` looks at, for some topping of
one of the orders. -/
def Read (cst : ℕ) (t : ℤ) : Prop :=
  ∃ i j, (o.orderList i).custNo = cst ∧ j < (o.orderList i).totaltoppings ∧ o.tindex cst j = t

/-- The stock is used up. -/
def Short (topStock : ℤ → ℤ) (t : ℤ) : Prop :=
  topStock t = 0 ∨ topStock t < -1

/-- The check goes by the toppings of the customer : it refuses the customer if and only if
one of them is used up, lets the customer in otherwise, and the stock of toppings that only
others ordered makes no difference. -/
structure ChecksOwn (topStock : ℤ → ℤ) (cst : ℕ) : Prop where
  refuses : o.ingreadientChecker false topStock cst = 0 ↔
    ∃ t, o.Ordered cst t ∧ Short topStock t
  admits : (¬∃ t, o.Ordered cst t ∧ Short topStock t) →
    o.ingreadientChecker false topStock cst = 1
  others : ∀ topStock' : ℤ → ℤ, (∀ t, ¬o.Foreign cst t → topStock' t = topStock t) →
    o.ingreadientChecker false topStock' cst = o.ingreadientChecker false topStock cst

/-- What the check looks at is as it should be : if a topping of the customer is used up,
the check looks at a topping that is used up and not only of others, and if none is, at no
topping that is used up or only of others. -/
structure ReadsRight (topStock : ℤ → ℤ) (cst : ℕ) : Prop where
  short : (∃ t, o.Ordered cst t ∧ Short topStock t) →
    ∃ t, o.Read cst t ∧ ¬o.Foreign cst t ∧ Short topStock t
  enough : (¬∃ t, o.Ordered cst t ∧ Short topStock t) →
    ∀ t, o.Read cst t → ¬o.Foreign cst t ∧ ¬Short topStock t

/-! ## What the check computes -/

variable {o} {topStock : ℤ → ℤ} {cst : ℕ}

open scoped Classical in
theorem toppingsLoop_eq (js : List ℕ) : o.toppingsLoop topStock cst js =
    if ∃ j ∈ js, Short topStock (o.tindex cst j) then some 0 else none := by
  induction js with
  | nil => simp [toppingsLoop]
  | cons j js ih =>
    unfold toppingsLoop
    dsimp only
    rw [ih]
    have hor : (∃ k ∈ j :: js, Short topStock (o.tindex cst k)) ↔
        Short topStock (o.tindex cst j) ∨ ∃ k ∈ js, Short topStock (o.tindex cst k) := by
      simp
    by_cases hj : Short topStock (o.tindex cst j)
    · rw [if_pos (hor.2 (.inl hj))]
      rcases hj with h | h
      · rw [if_pos h]
      · rw [if_neg (by omega), if_neg (by omega), if_pos h]
    · have hgo : topStock (o.tindex cst j) > 0 ∨ topStock (o.tindex cst j) = -1 := by
        unfold Short at hj
        omega
      rw [if_neg fun h => hj (.inl h), if_pos hgo]
      exact if_congr (by rw [hor, or_iff_right hj]) rfl rfl

open scoped Classical in
theorem ordersLoop_eq (is : List ℕ) : o.ordersLoop topStock cst is =
    if ∃ i ∈ is, (o.orderList i).custNo = cst ∧ ∃ j < (o.orderList i).totaltoppings,
      Short topStock (o.tindex cst j) then some 0 else none := by
  induction is with
  | nil => simp [ordersLoop]
  | cons i is ih =>
    unfold ordersLoop
    rw [ih, toppingsLoop_eq]
    simp only [List.mem_range, List.exists_mem_cons_iff]
    by_cases hi : (o.orderList i).custNo = cst
    · simp only [hi, if_true, true_and]
      by_cases hj : ∃ j < (o.orderList i).totaltoppings, Short topStock (o.tindex cst j)
      · simp [hj]
      · simp [hj]
    · simp [hi]

open scoped Classical in
/-- The check refuses the customer if and only if it reads a stock that is used up. -/
theorem ingreadientChecker_eq
    (hin : ∀ i, (o.orderList i).custNo = cst → i < o.totalorders) :
    o.ingreadientChecker false topStock cst =
      if ∃ t, o.Read cst t ∧ Short topStock t then 0 else 1 := by
  have hiff : (∃ i ∈ List.range o.totalorders, (o.orderList i).custNo = cst ∧
      ∃ j < (o.orderList i).totaltoppings, Short topStock (o.tindex cst j)) ↔
      ∃ t, o.Read cst t ∧ Short topStock t := by
    constructor
    · rintro ⟨i, -, hi, j, hj, hs⟩
      exact ⟨_, ⟨i, j, hi, hj, rfl⟩, hs⟩
    · rintro ⟨_, ⟨i, j, hi, hj, rfl⟩, hs⟩
      exact ⟨i, List.mem_range.2 (hin i hi), hi, j, hj, hs⟩
  unfold ingreadientChecker
  rw [ordersLoop_eq, if_congr hiff rfl rfl, if_neg (by decide)]
  split_ifs <;> rfl

/-- The check goes by the toppings of the customer if and only if the toppings it looks at,
those of entry `cst` of the order list, serve as well. -/
theorem admission_iff (o : OrderList) (topStock : ℤ → ℤ) (cst : ℕ)
    (hin : ∀ i, (o.orderList i).custNo = cst → i < o.totalorders) :
    o.ChecksOwn topStock cst ↔ o.ReadsRight topStock cst := by
  classical
  have hcheck : ∀ st : ℤ → ℤ, o.ingreadientChecker false st cst =
      if ∃ t, o.Read cst t ∧ Short st t then 0 else 1 := fun _ => ingreadientChecker_eq hin
  constructor
  · rintro ⟨hrefuses, -, hothers⟩
    rw [hcheck] at hrefuses
    have hr : (∃ t, o.Read cst t ∧ Short topStock t) ↔ ∃ t, o.Ordered cst t ∧ Short topStock t := by
      rw [← hrefuses]
      split_ifs with h <;> simp [h]
    -- the stock of the foreign toppings may be anything
    have hset : ∀ v : ℤ, ((∃ t, o.Read cst t ∧ Short (fun t => if o.Foreign cst t then v
        else topStock t) t) ↔ ∃ t, o.Read cst t ∧ Short topStock t) := by
      intro v
      have := hothers (fun t => if o.Foreign cst t then v else topStock t) fun t ht => if_neg ht
      rw [hcheck, hcheck] at this
      by_cases h : ∃ t, o.Read cst t ∧ Short topStock t
      · simpa [h] using this
      · simpa [h] using this
    refine ⟨fun hshort => ?_, fun henough t ht => ⟨fun hf => ?_, fun hs => ?_⟩⟩
    · obtain ⟨t, ht, hs⟩ := (hset 1).2 (hr.2 hshort)
      unfold Short at hs
      by_cases hf : o.Foreign cst t
      · simp [hf] at hs
      · exact ⟨t, ht, hf, by simpa [hf, Short] using hs⟩
    · exact henough (hr.1 ((hset 0).1 ⟨t, ht, .inl (if_pos hf)⟩))
    · exact henough (hr.1 ⟨t, ht, hs⟩)
  · rintro ⟨hshort, henough⟩
    have hr : (∃ t, o.Read cst t ∧ Short topStock t) ↔ ∃ t, o.Ordered cst t ∧ Short topStock t := by
      constructor
      · rintro ⟨t, ht, hs⟩
        by_contra h
        exact (henough h t ht).2 hs
      · intro h
        obtain ⟨t, ht, -, hs⟩ := hshort h
        exact ⟨t, ht, hs⟩
    refine ⟨?_, fun h => ?_, fun topStock' hsame => ?_⟩
    · rw [hcheck, ← hr]
      split_ifs with h <;> simp [h]
    · rw [hcheck, if_neg fun h' => h (hr.1 h')]
    · rw [hcheck, hcheck]
      refine if_congr ?_ rfl rfl
      by_cases h : ∃ t, o.Ordered cst t ∧ Short topStock t
      · obtain ⟨t, ht, hf, hs⟩ := hshort h
        refine iff_of_true ⟨t, ht, ?_⟩ ⟨t, ht, hs⟩
        unfold Short
        rwa [hsame t hf]
      · have hno : ∀ t, o.Read cst t → ¬Short topStock' t := by
          intro t ht hs
          obtain ⟨hf, hns⟩ := henough h t ht
          unfold Short at hs
          rw [hsame t hf] at hs
          exact hns hs
        exact iff_of_false (fun ⟨t, ht, hs⟩ => hno t ht hs) fun ⟨t, ht, hs⟩ =>
          (henough h t ht).2 hs

/-- Customer 1 orders caramel, and then customer 2 orders brownie. -/
def caramelBrownie : OrderList where
  orderList i :=
    if i = 0 then ⟨1, 1, fun _ => "caramel"⟩
    else if i = 1 then ⟨2, 1, fun _ => "brownie"⟩
    else ⟨-1, 0, fun _ => ""⟩
  totalorders := 1
  toppingList := ["caramel", "brownie"]

theorem caramelBrownie_first {i : ℕ} (h : (caramelBrownie.orderList i).custNo = (1 : ℕ)) :
    i = 0 := by
  by_contra hi
  simp only [caramelBrownie, if_neg hi] at h
  split_ifs at h <;> exact absurd h (by decide)

/-- With caramel and brownie there, the check is right about customer 1. -/
theorem admission_iff_stocked : caramelBrownie.ChecksOwn (fun _ => 4) 1 ↔
    caramelBrownie.ReadsRight (fun _ => 4) 1 :=
  admission_iff _ _ _ fun i hi => by
    rw [caramelBrownie_first hi]
    decide

/-- There is caramel, but no brownie : customer 1 is refused. -/
theorem refused_for_brownie :
    caramelBrownie.ingreadientChecker false (fun t => if t = 1 then 0 else 4) 1 = 0 ∧
    (∀ t, caramelBrownie.Ordered 1 t → t = 0) ∧
    ¬caramelBrownie.ChecksOwn (fun t => if t = 1 then 0 else 4) 1 := by
  have hcheck : caramelBrownie.ingreadientChecker false (fun t => if t = 1 then 0 else 4) 1 = 0 := by
    decide +kernel
  have howned : ∀ t, caramelBrownie.Ordered 1 t → t = 0 := by
    rintro t ⟨i, j, hi, -, rfl⟩
    rw [caramelBrownie_first hi]
    show caramelBrownie.giveIndex "caramel" = 0
    decide +kernel
  refine ⟨hcheck, howned, fun h => ?_⟩
  obtain ⟨t, ht, hs⟩ := h.refuses.1 hcheck
  rw [howned t ht] at hs
  exact absurd hs (by unfold Short; decide)

end OrderList

end CowPbs
