import Mathlib.Algebra.Group.Nat.Defs
import Mathlib.Algebra.Ring.Int.Defs
import OrderLookup.Order.Sample
import OrderLookup.Order.Validation
import OrderLookup.Proofs.Text.Decimal

/-!
What holds of every sample order whose sums fit into words. Its amounts add up, it is a good order
as long as the calendar reaches so far, and samples with different numbers differ in their ids,
their track numbers and their creation times.
-/

namespace OrderLookup

namespace Instant

/-- Whether some instant lies so many seconds after the epoch. -/
def Covers (seconds : Int) : Prop := -8334601228800 ≤ seconds ∧ seconds ≤ 8210266876799

instance (seconds : Int) : Decidable (Covers seconds) :=
  inferInstanceAs (Decidable (_ ∧ _))

theorem ofUnix?_of_covers {seconds : Int} (h : Covers seconds) :
    ∃ t : Instant, ofUnix? seconds 0 = some t ∧ t.seconds = seconds ∧ t.nanos = 0 := by
  have hall : -8334601228800 ≤ seconds ∧ seconds ≤ 8210266876799 ∧ 0 < 2000000000 ∧
      (1000000000 ≤ 0 → seconds % 60 = 59) := ⟨h.1, h.2, by omega, by omega⟩
  exact ⟨_, dif_pos hall, rfl, rfl⟩

theorem ofUnix?_of_not_covers {seconds : Int} (h : ¬Covers seconds) (nanos : Nat) :
    ofUnix? seconds nanos = none :=
  dif_neg fun hall => h ⟨hall.1, hall.2.1⟩

end Instant

namespace Order.Sample

open Text

variable {n m k : Nat}

def second (n : Nat) : Int := firstSecond + n * 60

/-- The sums and products that are made with signed words for item `k` of a sample, and for its
payment and its creation time. -/
def words (n k : Nat) : List Int :=
  let number := signedNumber n
  [number, number * 7, k * 13, number * 7 + k * 13, Int.tmod (number * 7 + k * 13) 100 * 1000,
    price n k, k * 5, number + k * 5, sale n k, price n k * sale n k, totalPrice n k, number * 10,
    100000 + number * 10, 100000 + number * 10 + k, 2000000 + number * 10,
    2000000 + number * 10 + k, goodsTotal n, goodsTotal n + deliveryCost, number * 60,
    firstSecond + number * 60]

/-- Whether nothing that a sample is made with is too large for its word. -/
structure Fits (n : Nat) : Prop where
  number : n < 2 ^ 63
  unsigned : 100000 + n < 2 ^ 64
  signed : ∀ k < itemCount n, ∀ v ∈ words n k, -2 ^ 63 ≤ v ∧ v < 2 ^ 63

theorem signedNumber_eq (h : n < 2 ^ 63) : signedNumber n = n := by
  rw [signedNumber, UInt64.toInt64_ofNat', Int64.toInt_ofNat_of_lt h]

theorem itemCount_le (n : Nat) : itemCount n ≤ 3 := by
  rw [itemCount]
  omega

theorem price_bounds (h : n < 2 ^ 63) (k : Nat) : 10000 ≤ price n k ∧ price n k ≤ 109000 := by
  have hsum : (0 : Int) ≤ signedNumber n * 7 + k * 13 := by
    rw [signedNumber_eq h]
    omega
  rw [price, Int.tmod_eq_emod_of_nonneg hsum]
  omega

theorem sale_bounds (h : n < 2 ^ 63) (k : Nat) : 0 ≤ sale n k ∧ sale n k ≤ 30 := by
  have hsum : (0 : Int) ≤ signedNumber n + k * 5 := by
    rw [signedNumber_eq h]
    omega
  rw [sale, Int.tmod_eq_emod_of_nonneg hsum]
  omega

theorem discount_bounds (h : n < 2 ^ 63) (k : Nat) :
    0 ≤ price n k * sale n k ∧ price n k * sale n k ≤ price n k * 30 := by
  obtain ⟨hprice, -⟩ := price_bounds h k
  obtain ⟨hsale, hsale'⟩ := sale_bounds h k
  have hpositive : 0 ≤ price n k := by omega
  exact ⟨Int.mul_nonneg hpositive hsale, Int.mul_le_mul_of_nonneg_left hsale' hpositive⟩

theorem totalPrice_bounds (h : n < 2 ^ 63) (k : Nat) :
    0 < totalPrice n k ∧ totalPrice n k ≤ price n k := by
  obtain ⟨hprice, -⟩ := price_bounds h k
  obtain ⟨hlow, hhigh⟩ := discount_bounds h k
  rw [totalPrice, Int.tdiv_eq_ediv_of_nonneg hlow]
  omega

theorem goodsTotal_eq (n : Nat) :
    goodsTotal n = ((List.range (itemCount n)).map (totalPrice n)).sum := by
  rw [goodsTotal, List.sum_eq_foldr, List.foldr_map]

theorem sum_bounds (h : n < 2 ^ 63) (l : List Nat) :
    0 ≤ (l.map (totalPrice n)).sum ∧ (l.map (totalPrice n)).sum ≤ 109000 * l.length := by
  induction l with
  | nil => simp
  | cons k l ih =>
    have hprice := price_bounds h k
    have htotal := totalPrice_bounds h k
    rw [List.map_cons, List.sum_cons, List.length_cons]
    omega

theorem goodsTotal_bounds (h : n < 2 ^ 63) : 0 ≤ goodsTotal n ∧ goodsTotal n ≤ 327000 := by
  have hsum := sum_bounds h (List.range (itemCount n))
  have hcount := itemCount_le n
  rw [List.length_range] at hsum
  rw [goodsTotal_eq]
  omega

theorem item_amounts (h : n < 2 ^ 63) (k : Nat) :
    (item n k).price.toInt = price n k ∧ (item n k).sale.toInt = sale n k ∧
      (item n k).totalPrice.toInt = totalPrice n k := by
  have hprice := price_bounds h k
  have hsale := sale_bounds h k
  have htotal := totalPrice_bounds h k
  refine ⟨?_, ?_, ?_⟩ <;> exact Int64.toInt_ofInt_of_le (by omega) (by omega)

theorem payment_amounts (h : n < 2 ^ 63) :
    (sample n).payment.goodsTotal.toInt = goodsTotal n ∧
      (sample n).payment.deliveryCost.toInt = deliveryCost ∧
      (sample n).payment.amount.toInt = goodsTotal n + deliveryCost := by
  have hgoods := goodsTotal_bounds h
  have hdelivery : deliveryCost = 1500 := rfl
  refine ⟨?_, ?_, ?_⟩ <;> exact Int64.toInt_ofInt_of_le (by omega) (by omega)

theorem fits_iff (n : Nat) : Fits n ↔ second n < 2 ^ 63 := by
  constructor
  · intro h
    have hfirst : 0 < itemCount n := Nat.succ_pos _
    have hlast := h.signed 0 hfirst (firstSecond + signedNumber n * 60) (by simp [words])
    rw [signedNumber_eq h.number] at hlast
    exact hlast.2
  · intro h
    rw [second, firstSecond] at h
    have hn : n < 2 ^ 63 := by omega
    refine ⟨hn, by omega, fun k hk v hv => ?_⟩
    have hcount := itemCount_le n
    have hprice := price_bounds hn k
    have hsale := sale_bounds hn k
    have htotal := totalPrice_bounds hn k
    have hdiscount := discount_bounds hn k
    have hgoods := goodsTotal_bounds hn
    have hthousands : Int.tmod (n * 7 + k * 13) 100 * 1000 = price n k - 10000 := by
      rw [price, signedNumber_eq hn]
      omega
    simp only [words, signedNumber_eq hn, hthousands, deliveryCost, firstSecond, List.mem_cons,
      List.not_mem_nil, or_false] at hv
    omega

theorem created_of_covers (h : n < 2 ^ 63) (hc : Instant.Covers (second n)) :
    (created n).seconds = second n ∧ (created n).nanos = 0 := by
  obtain ⟨t, ht, hseconds, hnanos⟩ := Instant.ofUnix?_of_covers hc
  rw [created, signedNumber_eq h, ← second, ht]
  exact ⟨hseconds, hnanos⟩

theorem created_of_not_covers (h : n < 2 ^ 63) (hc : ¬Instant.Covers (second n)) :
    created n = Instant.epoch := by
  rw [created, signedNumber_eq h, ← second, Instant.ofUnix?_of_not_covers hc]
  rfl

theorem number_lt_of_covers (h : Instant.Covers (second n)) : n < 2 ^ 63 := by
  simp only [Instant.Covers, second, firstSecond] at h
  omega

theorem covers_of_le (hle : n ≤ m) (h : Instant.Covers (second m)) :
    Instant.Covers (second n) := by
  simp only [Instant.Covers, second, firstSecond] at *
  omega

theorem created_lt (h : m < 2 ^ 63) (hlt : n < m) (hc : Instant.Covers (second m)) :
    created n < created m := by
  obtain ⟨hm, -⟩ := created_of_covers h hc
  obtain ⟨hn, -⟩ := created_of_covers (Nat.lt_trans hlt h) (covers_of_le (Nat.le_of_lt hlt) hc)
  left
  rw [hm, hn, second, second]
  omega

theorem decimal_ne_nil (n : Nat) : decimal n ≠ "" := by
  intro h
  exact digits_ne_nil n (String.ofList_inj.1 h)

theorem uid_ne_of_ne (h : m ≠ n) : uid m ≠ uid n := by
  intro hu
  have hdigits : digits m = digits n := String.ofList_inj.1 ((String.append_right_inj _).1 hu)
  apply h
  rw [← value_digits m, hdigits, value_digits]

theorem trackNumber_ne_of_ne (h : m ≠ n) : trackNumber m ≠ trackNumber n := by
  intro ht
  have hpadded : padded 6 (100000 + m) = padded 6 (100000 + n) :=
    String.ofList_inj.1 ((String.append_right_inj _).1 ht)
  have hvalue : 100000 + m = 100000 + n := by
    rw [← value_padded 6 (100000 + m), hpadded, value_padded]
  omega

theorem getElem?_pick {l : List String} (h : l ≠ []) (n : Nat) :
    l[n % l.length]? = some (pick l n) := by
  have hlt : n % l.length < l.length := Nat.mod_lt _ (List.length_pos_iff.2 h)
  rw [pick, List.getD_eq_getElem?_getD, List.getElem?_eq_getElem hlt]
  rfl

theorem deliveryService_ne_nil (n : Nat) : pick deliveryServices n ≠ "" := by
  have hall : ∀ service ∈ deliveryServices, service ≠ "" := by decide
  exact hall _ (List.mem_of_getElem? (getElem?_pick (by decide) n))

theorem append_ne_nil {s : String} (h : s ≠ "") (t : String) : s ++ t ≠ "" := by
  intro he
  exact h (String.append_eq_empty_iff.1 he).1

end Order.Sample

namespace Order

open Sample (Fits second)

variable {n m : Nat}

theorem hasCreationTime_sample (h : n < 2 ^ 63) :
    (sample n).hasCreationTime = decide (Instant.Covers (second n)) := by
  have hlt : (sample n).hasCreationTime = decide (Instant.epoch < Sample.created n) := rfl
  rw [hlt]
  by_cases hc : Instant.Covers (second n)
  · obtain ⟨hseconds, -⟩ := Sample.created_of_covers h hc
    have hlater : Instant.epoch < Sample.created n := by
      left
      rw [hseconds, second, Sample.firstSecond]
      change (0 : Int) < _
      omega
    rw [decide_eq_true hlater, decide_eq_true hc]
  · rw [Sample.created_of_not_covers h hc, decide_eq_false hc]
    rfl

theorem violations_sample (h : n < 2 ^ 63) :
    (sample n).violations =
      if Instant.Covers (second n) then [] else ["date_created must be set"] := by
  have huid : (sample n).uid ≠ "" := Sample.append_ne_nil (by decide) _
  have htrack : (sample n).trackNumber ≠ "" := Sample.append_ne_nil (by decide) _
  have hentry : (sample n).entry ≠ "" := by simp [sample]
  have hcustomer : (sample n).customerId ≠ "" := Sample.append_ne_nil (by decide) _
  have hservice : (sample n).deliveryService ≠ "" := Sample.deliveryService_ne_nil n
  have hshard : (sample n).shardKey ≠ "" := Sample.decimal_ne_nil _
  have hoof : (sample n).oofShard ≠ "" := by simp [sample]
  have hitems : (sample n).items ≠ [] := by simp [sample, Sample.itemCount]
  have hcount : (0 : Int64) ≤ (sample n).smId := by
    have hlt : n % 100 < 2 ^ 63 := by omega
    rw [Int64.le_iff_toInt_le]
    change (0 : Int) ≤ (Int64.ofNat (n % 100)).toInt
    rw [Int64.toInt_ofNat_of_lt hlt]
    omega
  have hdate := hasCreationTime_sample h
  by_cases hc : Instant.Covers (second n)
  · simp [violations, rules, required, huid, htrack, hentry, hcustomer, hservice, hshard, hoof,
      hitems, hcount, hdate, hc]
  · simp [violations, rules, required, huid, htrack, hentry, hcustomer, hservice, hshard, hoof,
      hitems, hcount, hdate, hc]

theorem validate_sample_iff (h : n < 2 ^ 63) :
    (sample n).validate = .ok () ↔ Instant.Covers (second n) := by
  rw [validate, violations_sample h]
  by_cases hc : Instant.Covers (second n)
  · simp [hc]
  · simp [hc]

theorem mem_items_sample {i : Item} (hi : i ∈ (sample n).items) :
    ∃ k < Sample.itemCount n, i = Sample.item n k := by
  obtain ⟨k, hk, rfl⟩ := List.mem_map.1 hi
  exact ⟨k, List.mem_range.1 hk, rfl⟩

/-- A sample whose sums fit into words is a good order exactly if the calendar reaches to its
creation time. Its amounts add up, and its id is its own. -/
theorem samples_are_consistent (h : Fits n) :
    let o := sample n
    (o.validate = .ok () ↔ Instant.Covers (second n)) ∧
      (1 ≤ o.items.length ∧ o.items.length ≤ 3) ∧
      (∀ i ∈ o.items, 0 ≤ i.sale.toInt ∧ i.sale.toInt ≤ 30 ∧ 0 < i.totalPrice.toInt ∧
        i.totalPrice.toInt ≤ i.price.toInt ∧
        i.totalPrice.toInt = i.price.toInt - Int.tdiv (i.price.toInt * i.sale.toInt) 100 ∧
        i.trackNumber = o.trackNumber) ∧
      o.payment.goodsTotal.toInt = (o.items.map fun i => i.totalPrice.toInt).sum ∧
      o.payment.amount.toInt = o.payment.goodsTotal.toInt + o.payment.deliveryCost.toInt ∧
      (Sample.cities[n % 5]? = some o.delivery.city ∧
        Sample.cities[n % 5]? = some o.delivery.region ∧
        Sample.deliveryServices[n % 3]? = some o.deliveryService ∧
        ∀ k i, o.items[k]? = some i → Sample.brands[(n % 4 + k) % 4]? = some i.brand) ∧
      ∀ m, Fits m → m ≠ n → (sample m).uid ≠ o.uid ∧ (sample m).trackNumber ≠ o.trackNumber ∧
        (n < m → Instant.Covers (second m) → o.dateCreated < (sample m).dateCreated) := by
  intro o
  have hn := h.number
  obtain ⟨hgoods, hdelivery, hamount⟩ := Sample.payment_amounts hn
  have hlength : o.items.length = Sample.itemCount n := by simp [o, sample]
  have hcount := Sample.itemCount_le n
  have hpositive : 0 < Sample.itemCount n := Nat.succ_pos _
  refine ⟨validate_sample_iff hn, ⟨by omega, by omega⟩, ?_, ?_, ?_, ⟨?_, ?_, ?_, ?_⟩, ?_⟩
  · intro i hi
    obtain ⟨k, -, rfl⟩ := mem_items_sample hi
    obtain ⟨hprice, hsale, htotal⟩ := Sample.item_amounts hn k
    obtain ⟨hlow, hhigh⟩ := Sample.sale_bounds hn k
    obtain ⟨hcosts, hless⟩ := Sample.totalPrice_bounds hn k
    rw [hprice, hsale, htotal]
    exact ⟨hlow, hhigh, hcosts, hless, rfl, rfl⟩
  · have htotals : o.items.map (fun i => i.totalPrice.toInt) =
        (List.range (Sample.itemCount n)).map (Sample.totalPrice n) := by
      have hitems : o.items = (List.range (Sample.itemCount n)).map (Sample.item n) := rfl
      rw [hitems, List.map_map]
      exact List.map_congr_left fun k _ => (Sample.item_amounts hn k).2.2
    rw [htotals, ← Sample.goodsTotal_eq, hgoods]
  · rw [hamount, hgoods, hdelivery]
  · exact Sample.getElem?_pick (l := Sample.cities) (by decide) n
  · exact Sample.getElem?_pick (l := Sample.cities) (by decide) n
  · exact Sample.getElem?_pick (l := Sample.deliveryServices) (by decide) n
  · intro k i hi
    have hitem : o.items[k]? = ((List.range (Sample.itemCount n))[k]?).map (Sample.item n) :=
      List.getElem?_map
    rw [hitem] at hi
    obtain ⟨j, hj, rfl⟩ := Option.map_eq_some_iff.1 hi
    obtain ⟨-, rfl⟩ := List.getElem?_eq_some_iff.1 hj
    rw [List.getElem_range]
    exact Sample.getElem?_pick (l := Sample.brands) (by decide) (n % 4 + k)
  · intro m hm hne
    refine ⟨Sample.uid_ne_of_ne hne, Sample.trackNumber_ne_of_ne hne, fun hlt hc => ?_⟩
    exact Sample.created_lt hm.number hlt hc

theorem samples_are_consistent_late :
    let o := sample 450000000
    Fits 450000000 ∧ Fits 150000000000 ∧ o.validate = .ok () ∧
      ¬(sample 150000000000).validate = .ok () ∧ (sample 150000000000).uid ≠ o.uid ∧
      o.payment.goodsTotal.toInt = (o.items.map fun i => i.totalPrice.toInt).sum := by
  intro o
  have hnear : Fits 450000000 := (Sample.fits_iff _).2 (by decide)
  have hfar : Fits 150000000000 := (Sample.fits_iff _).2 (by decide)
  obtain ⟨hvalid, -, -, htotal, -, -, hother⟩ := samples_are_consistent hnear
  obtain ⟨hinvalid, -⟩ := samples_are_consistent hfar
  refine ⟨hnear, hfar, hvalid.2 (by decide), ?_, (hother _ hfar (by decide)).1, htotal⟩
  rw [hinvalid]
  decide

end Order

end OrderLookup
