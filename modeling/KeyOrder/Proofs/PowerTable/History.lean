import KeyOrder.Proofs.Checked.PowerTable
import KeyOrder.Proofs.PowerTable.Requests

/-!
# KeyOrder.Proofs.PowerTable.History

The table after any history of requests. Whichever powers were asked for, and in whichever order,
the table holds the powers below its size and no others, its size is that of the largest request,
and what it answers next is right (`powers_after_requests`).

A request for bytes does to the table what a request for the power does, so a history is the list
of its exponents (`after_fresh`).
-/

namespace KeyOrder
namespace PowerTable

/-- A table as it is made, new or filled up to a power. -/
def fresh : Option UInt32 → PowerTable
  | none => new
  | some exponent => prefilled exponent

/-- A request for a power, as a number or as its bytes. -/
inductive Request where
  | power (exponent : UInt32)
  | bytes (exponent : UInt32)

namespace Request

def exponent : Request → UInt32
  | power exponent => exponent
  | bytes exponent => exponent

/-- The table that a request leaves. -/
def run (t : PowerTable) : Request → PowerTable
  | power exponent => (t.get exponent).2
  | bytes exponent => (t.bytes exponent).2

theorem run_eq (t : PowerTable) (request : Request) :
    run t request = (t.get request.exponent).2 := by
  cases request with
  | power exponent => rfl
  | bytes exponent => rfl

end Request

/-- The table that a history of requests leaves. -/
def after (t : PowerTable) (requests : List Request) : PowerTable :=
  requests.foldl Request.run t

theorem after_eq_ask (requests : List Request) :
    ∀ t : PowerTable, t.after requests = t.ask (requests.map Request.exponent) := by
  induction requests with
  | nil => exact fun t => rfl
  | cons request requests ih =>
    intro t
    rw [List.map_cons, ask_cons, ← Request.run_eq]
    exact ih (Request.run t request)

theorem fresh_eq_ask (prefill : Option UInt32) : fresh prefill = new.ask prefill.toList := by
  cases prefill with
  | none => rfl
  | some exponent => rfl

theorem fresh_reachable (prefill : Option UInt32) : Reachable (fresh prefill) := by
  cases prefill with
  | none => exact .new
  | some exponent => exact .prefilled exponent

theorem after_fresh (prefill : Option UInt32) (requests : List Request) :
    (fresh prefill).after requests =
      new.ask (prefill.toList ++ requests.map Request.exponent) := by
  rw [after_eq_ask, fresh_eq_ask, ask_append]

theorem bytes_filled {t : PowerTable} (ht : Filled t) (exponent : UInt32) :
    (t.bytes exponent).1.value = 10 ^ exponent.toNat ∧ (t.bytes exponent).1.head? ≠ some 0 ∧
      ∀ other : Bytes, other.value = 10 ^ exponent.toNat →
        (t.bytes exponent).1.length ≤ other.length := by
  have hvalue := (get_filled ht exponent).1
  have hbytes : (t.bytes exponent).1 = (t.get exponent).1.toBytes := rfl
  rw [hbytes]
  refine ⟨(Natural.value_toBytes _).trans hvalue, Bytes.head?_significant_ne_zero _, ?_⟩
  intro other hother
  exact Natural.length_toBytes_le (hother.trans hvalue.symm)

/-- After any history the table has the size that its largest request needs; it holds `10^i` in
every slot below its size, in the one form of a natural, and nothing in the others; a filled slot
keeps what it holds; the last one is there to go on from, as is every slot that a request uses; and
a power and its bytes are answered with `10^exponent`, the bytes without a leading zero. -/
theorem powers_after_requests (prefill : Option UInt32) (requests : List Request) :
    let t := (fresh prefill).after requests
    t.size = grown 20 (prefill.toList ++ requests.map Request.exponent) ∧
    (∀ i < t.size, ∃ power, t.lookup i = some power ∧ power.value = 10 ^ i ∧
      power.limbs.getLast? ≠ some 0) ∧
    (∀ i, t.size ≤ i → t.lookup i = none) ∧
    (∀ (later : List Request) (i : Nat) (power : Natural),
      t.lookup i = some power → (t.after later).lookup i = some power) ∧
    (∃ last, t.lookup (t.size - 1) = some last) ∧
    (∀ exponent, Checked.get t exponent = some (t.get exponent)) ∧
    ∀ exponent, (t.get exponent).1.value = 10 ^ exponent.toNat ∧
      (t.bytes exponent).1.value = 10 ^ exponent.toNat ∧ (t.bytes exponent).1.head? ≠ some 0 ∧
      ∀ other : Bytes, other.value = 10 ^ exponent.toNat →
        (t.bytes exponent).1.length ≤ other.length := by
  intro t
  have hask : t = new.ask (prefill.toList ++ requests.map Request.exponent) :=
    after_fresh prefill requests
  have ht : Filled t := hask ▸ (ask_filled _ new_filled).1
  have hleast : 20 ≤ t.size := ht.least
  refine ⟨?_, ?_, ?_, ?_, ?_, ?_, ?_⟩
  · rw [hask]
    exact size_ask new_filled _
  · intro i hi
    obtain ⟨power, hlookup, hvalue⟩ := lookup_of_lt ht.holds hi
    exact ⟨power, hlookup, hvalue, power.top_ne_zero⟩
  · intro i hi
    exact lookup_of_le ht.holds hi
  · intro later i power hlookup
    rw [after_eq_ask]
    exact lookup_ask ht _ hlookup
  · obtain ⟨last, hlookup, -⟩ := lookup_of_lt ht.holds (show t.size - 1 < t.size by omega)
    exact ⟨last, hlookup⟩
  · exact Checked.get_eq ht
  · intro exponent
    exact ⟨(get_filled ht exponent).1, bytes_filled ht exponent⟩

end PowerTable
end KeyOrder
