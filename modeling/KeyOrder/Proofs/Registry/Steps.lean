import KeyOrder.Decimal.Encode
import KeyOrder.Proofs.Key.Requests
import KeyOrder.Proofs.PowerTable.History
import KeyOrder.Registry.Basic

/-!
# KeyOrder.Proofs.Registry.Steps

Steps on one registry. All its comparators share one table, which a comparison may make grow, but
nobody can tell: a step answers what it would answer over a fresh table (`step_asks`). So a run
gives each of its steps that answer, and it leaves the table that asking for the powers of all
steps leaves (`run_eq`). Neither the answers nor the size of the table depend on the order of the
steps (`run_perm`).
-/

namespace KeyOrder
namespace Registry

open PowerTable (Filled Reachable ask_append ask_filled fresh fresh_reachable grown_perm size_ask)

/-- A use of a registry: a comparator is resolved and then asked, or a power is. -/
inductive Step where
  | compare (name : String) (a b : Bytes)
  | less (name : String) (a b : Bytes)
  | powerBytes (exponent : UInt32)

inductive Answer where
  | unresolved (e : ConfigError)
  | order (result : Except DecodeError Ordering)
  | less (result : Except DecodeError Bool)
  | bytes (power : Bytes)

/-- Asks the comparator of a name, if there is one. -/
def resolved (name : String) (use : Comparator → Registry → Answer × Registry) (r : Registry) :
    Answer × Registry :=
  match r.resolve name with
  | .ok c => use c r
  | .error e => (.unresolved e, r)

/-- The answer to a step, with the registry that is left. -/
def step (s : Step) (r : Registry) : Answer × Registry :=
  match s with
  | .compare name a b =>
    r.resolved name fun c r =>
      let (result, r) := r.compareWith c a b
      (.order result, r)
  | .less name a b =>
    r.resolved name fun c r =>
      let (result, r) := r.lessWith c a b
      (.less result, r)
  | .powerBytes exponent =>
    let (power, r) := r.powerBytes exponent
    (.bytes power, r)

/-- The answers to steps that are made one after another. -/
def run : List Step → Registry → List Answer × Registry
  | [], r => ([], r)
  | s :: steps, r =>
    let (answer, r) := r.step s
    let (answers, r) := r.run steps
    (answer :: answers, r)

def withPowers (r : Registry) (powers : PowerTable) : Registry := { r with powers := powers }

/-! ## Steps -/

/-- `use` gives one and the same answer whatever filled table the registry has, and it leaves the
table that asking for some exponents leaves. -/
def Asks (use : Registry → Answer × Registry) : Prop :=
  ∀ r : Registry, ∃ exponents answer, ∀ t, Filled t →
    use (r.withPowers t) = (answer, r.withPowers (t.ask exponents))

theorem Asks.resolved {use : Comparator → Registry → Answer × Registry} (h : ∀ c, Asks (use c))
    (name : String) : Asks (Registry.resolved name use) := by
  intro r
  cases hname : r.resolve name with
  | error e =>
    refine ⟨[], .unresolved e, ?_⟩
    intro t _
    have hresolve : (r.withPowers t).resolve name = .error e := hname
    rw [Registry.resolved, hresolve]
    rfl
  | ok c =>
    obtain ⟨exponents, answer, huse⟩ := h c r
    refine ⟨exponents, answer, ?_⟩
    intro t ht
    have hresolve : (r.withPowers t).resolve name = .ok c := hname
    rw [Registry.resolved, hresolve]
    exact huse t ht

/-- A use of the table alone. -/
theorem Asks.powers {α : Type} {use : PowerTable → α × PowerTable}
    (h : ∃ exponents, PowerTable.Asks use exponents) (f : α → Answer) :
    Asks fun r => (f (use r.powers).1, r.withPowers (use r.powers).2) := by
  intro r
  obtain ⟨exponents, result, huse⟩ := h
  refine ⟨exponents, f result, ?_⟩
  intro t ht
  show (f (use t).1, r.withPowers (use t).2) = _
  rw [huse t ht]

theorem step_asks (s : Step) : Asks (step s) := by
  cases s with
  | compare name a b =>
    exact Asks.resolved (fun c => Asks.powers (c.compare_asks a b) Answer.order) name
  | less name a b =>
    exact Asks.resolved (fun c => Asks.powers (c.less_asks a b) Answer.less) name
  | powerBytes exponent =>
    have hbytes : PowerTable.Asks (fun t => t.bytes exponent) [exponent] :=
      (PowerTable.Asks.get exponent).map Natural.toBytes
    exact Asks.powers ⟨_, hbytes⟩ Answer.bytes

/-! ## Runs -/

theorem run_eq {r : Registry} {requests : Step → List UInt32} {answer : Step → Answer}
    (h : ∀ s t, Filled t →
      (r.withPowers t).step s = (answer s, r.withPowers (t.ask (requests s))))
    (steps : List Step) :
    ∀ t, Filled t → (r.withPowers t).run steps =
      (steps.map answer, r.withPowers (t.ask (steps.flatMap requests))) := by
  induction steps with
  | nil => exact fun t _ => rfl
  | cons s steps ih =>
    intro t ht
    have hrest := ih _ (ask_filled (requests s) ht).1
    rw [run, h s t ht, List.map_cons, List.flatMap_cons, ask_append]
    simp only [hrest]

/-- Whatever was done with a registry before, each step answers what it answers over a fresh table;
so steps that are made in another order have the same answers, each at its own place, and leave a
table of the same size. -/
theorem run_perm {r : Registry} (hr : Reachable r.powers) {steps others : List Step}
    (hperm : others.Perm steps) (prefill : Option UInt32) :
    (r.run steps).1 = steps.map (fun s => ((r.withPowers (fresh prefill)).step s).1) ∧
    (∀ i j : Nat, others[i]? = steps[j]? → (r.run others).1[i]? = (r.run steps).1[j]?) ∧
    (r.run others).2.powers.size = (r.run steps).2.powers.size := by
  have ht : Filled r.powers := hr.filled
  -- what a step answers and asks for is told by the step alone
  choose requests answer hsteps using fun s => step_asks s r
  have hrun (steps : List Step) : r.run steps =
      (steps.map answer, r.withPowers (r.powers.ask (steps.flatMap requests))) :=
    run_eq hsteps steps r.powers ht
  have hfresh (s : Step) : ((r.withPowers (fresh prefill)).step s).1 = answer s := by
    rw [hsteps s _ (fresh_reachable prefill).filled]
  rw [hrun others, hrun steps]
  refine ⟨?_, ?_, ?_⟩
  · exact List.map_congr_left fun s _ => (hfresh s).symm
  · intro i j hij
    rw [List.getElem?_map, List.getElem?_map, hij]
  · show (r.powers.ask _).size = (r.powers.ask _).size
    rw [size_ask ht, size_ask ht]
    exact grown_perm (hperm.flatMap_right requests) _

/-- A comparison that asks for `10^30`, then a request for `10^25`, and the other way round. -/
theorem run_perm_grown :
    let amounts : Comparator := .key [⟨.decimal, .ascending⟩]
    let r := Registry.new.comparators.insert "amounts" amounts
    let first := Step.compare "amounts"
      (EncodedDecimal.encodeExtended true
        [0x0c, 0x9f, 0x2c, 0x9c, 0xd0, 0x46, 0x74, 0xed, 0xea, 0x40, 0, 0, 0] 0)
      (EncodedDecimal.encode true [1] 30)
    let second := Step.powerBytes 25
    (Registry.run [second, first] ⟨r, PowerTable.new⟩).2.powers.size =
      (Registry.run [first, second] ⟨r, PowerTable.new⟩).2.powers.size := by
  intro amounts r first second
  have hperm : [second, first].Perm [first, second] := .swap first second []
  exact (run_perm (r := ⟨r, PowerTable.new⟩) Reachable.new hperm none).2.2

end Registry
end KeyOrder
