import Mathlib
import KeyOrder.Bytes.Cursor

/-!
# KeyOrder.Proofs.Bytes.Plan

Reads taken apart. A read of several parts is a tree: it asks the buffer for a byte or a block, goes
on by what it gets, and in the end is done or rejects what it got.

* `Request`       — what is asked of a buffer at once, all of it or nothing.
* `Plan α`        — the tree, and `Plan.decode` the read that it is the plan of.
* `Reaches`       — from a plan at a cursor, requests that are met lead to what is left of the plan
  at a later cursor.
* `FailsAt`       — a plan fails before it reads anything more: the bytes of its first request are
  not there, or it rejects.
* `Planned d`     — a plan of `d`, put together as `d` is.

A decoder is a function and only tells where it ends. Its plan tells all the cursors between, so it
can be said which request failed and where that was made (`decode_error_iff`).
-/

namespace KeyOrder

/-- Something was read and is not allowed. -/
inductive DecodeError.Violation : DecodeError → Prop where
  | presence (flag : UInt8) : Violation (.invalidPresence flag)
  | length (length : Int64) : Violation (.invalidLength length)
  | unscaled (unscaled : Int64) : Violation (.negativeUnscaled unscaled)
  | scale (scale : Int64) : Violation (.scaleOutOfRange scale)

/-- The cursor has not gone back, nor left the buffer. -/
structure Cursor.Forward (c c' : Cursor) : Prop where
  buffer : c'.buffer = c.buffer
  position : c.position ≤ c'.position
  inside : c.position ≤ c.buffer.length → c'.position ≤ c.buffer.length

namespace Cursor.Forward

theorem refl (c : Cursor) : Forward c c := ⟨rfl, le_rfl, id⟩

theorem trans {c c' c'' : Cursor} (h : Forward c c') (h' : Forward c' c'') : Forward c c'' where
  buffer := h'.buffer.trans h.buffer
  position := le_trans h.position h'.position
  inside := by
    intro hinside
    rw [← h.buffer]
    exact h'.inside (h.buffer ▸ h.inside hinside)

theorem advance {c : Cursor} {n : Nat} (h : n ≤ c.remaining) : Forward c (c.advance n) where
  buffer := rfl
  position := Nat.le_add_right _ _
  inside := by
    intro hinside
    show c.position + n ≤ c.buffer.length
    unfold Cursor.remaining at h
    omega

end Cursor.Forward

open Cursor (Forward)

/-! ## Requests -/

inductive Request where
  | byte
  | block (n : Nat)

namespace Request

abbrev Reply : Request → Type
  | byte => UInt8
  | block _ => Bytes

def decode : (r : Request) → Decoder r.Reply
  | byte => Decoder.byte
  | block n => Decoder.take n

def size : Request → Nat
  | byte => 1
  | block n => n

/-- The error of a request that is not met. -/
def shortage : Request → Cursor → DecodeError
  | byte, _ => .unexpectedEnd
  | block n, c => .bufferTooShort n c.remaining

/-- A request is met, or consumes nothing. -/
theorem decode_cases (r : Request) (c : Cursor) :
    (r.size ≤ c.remaining ∧ ∃ reply, r.decode c = (.ok reply, c.advance r.size)) ∨
      (c.remaining < r.size ∧ r.decode c = (.error (r.shortage c), c)) := by
  cases r with
  | byte =>
    cases hrest : c.rest with
    | nil =>
      have hnone : c.remaining = 0 := by rw [← Cursor.length_rest, hrest, List.length_nil]
      refine .inr ⟨hnone ▸ Nat.zero_lt_one, ?_⟩
      simp only [decode, Decoder.byte, hrest]
      rfl
    | cons b rest =>
      have hsome : 1 ≤ c.remaining := by
        rw [← Cursor.length_rest, hrest, List.length_cons]
        exact Nat.le_add_left _ _
      refine .inl ⟨hsome, b, ?_⟩
      simp only [decode, Decoder.byte, hrest]
      rfl
  | block n =>
    by_cases hn : n ≤ c.remaining
    · exact .inl ⟨hn, _, if_pos hn⟩
    · exact .inr ⟨not_le.mp hn, if_neg hn⟩

theorem decode_error_iff (r : Request) (c : Cursor) (e : DecodeError) (c' : Cursor) :
    r.decode c = (.error e, c') ↔ c.remaining < r.size ∧ e = r.shortage c ∧ c' = c := by
  obtain ⟨hmet, reply, hdecode⟩ | ⟨hshort, hdecode⟩ := r.decode_cases c
  · simp [hdecode, hmet]
  · simp [hdecode, hshort, eq_comm]

theorem forward {r : Request} {c c' : Cursor} {reply : r.Reply}
    (h : r.decode c = (.ok reply, c')) : Forward c c' := by
  obtain ⟨hmet, reply', hdecode⟩ | ⟨-, hdecode⟩ := r.decode_cases c
  · rw [hdecode] at h
    cases h
    exact .advance hmet
  · rw [hdecode] at h
    cases h

end Request

/-! ## Plans -/

inductive Plan (α : Type) where
  | done (a : α)
  | reject (e : DecodeError) (h : e.Violation)
  | read (r : Request) (next : r.Reply → Plan α)

namespace Plan

variable {α β : Type}

def decode : Plan α → Decoder α
  | done a => pure a
  | reject e _ => Decoder.fail e
  | read r next => do
    let reply ← r.decode
    (next reply).decode

/-- What `p` reads, then what `next` reads after it. -/
def bind (p : Plan α) (next : α → Plan β) : Plan β :=
  match p with
  | done a => next a
  | reject e h => reject e h
  | read r rest => read r fun reply => (rest reply).bind next

theorem decode_bind (p : Plan α) (next : α → Plan β) :
    (p.bind next).decode = p.decode >>= fun a => (next a).decode := by
  induction p with
  | done a => rfl
  | reject e h => rfl
  | read r rest ih =>
    funext c
    simp only [bind, decode, Decoder.bind_apply, ih]
    cases r.decode c with
    | mk result c' => cases result <;> rfl

inductive Reaches : Plan α → Cursor → Plan α → Cursor → Prop where
  | refl (p : Plan α) (c : Cursor) : Reaches p c p c
  | read {r : Request} {next : r.Reply → Plan α} {q : Plan α} {c mid c' : Cursor}
    {reply : r.Reply} (hmet : r.decode c = (.ok reply, mid))
    (hnext : Reaches (next reply) mid q c') : Reaches (.read r next) c q c'

inductive FailsAt : Plan α → Cursor → DecodeError → Prop where
  | short {r : Request} (next : r.Reply → Plan α) {c : Cursor} (h : c.remaining < r.size) :
    FailsAt (.read r next) c (r.shortage c)
  | rejects {e : DecodeError} (h : e.Violation) (c : Cursor) : FailsAt (.reject e h) c e

theorem Reaches.decode {p q : Plan α} {c c' : Cursor} (h : p.Reaches c q c') :
    p.decode c = q.decode c' := by
  induction h with
  | refl p c => rfl
  | read hmet _ ih =>
    rw [Plan.decode, Decoder.bind_apply, hmet]
    exact ih

theorem Reaches.forward {p q : Plan α} {c c' : Cursor} (h : p.Reaches c q c') : Forward c c' := by
  induction h with
  | refl p c => exact .refl c
  | read hmet _ ih => exact (Request.forward hmet).trans ih

theorem FailsAt.decode {p : Plan α} {c : Cursor} {e : DecodeError} (h : p.FailsAt c e) :
    p.decode c = (.error e, c) := by
  cases h with
  | short next h =>
    rw [Plan.decode, Decoder.bind_apply,
      (Request.decode_error_iff _ _ _ _).mpr ⟨h, rfl, rfl⟩]
  | rejects h c => rfl

/-- Every plan gets to where it is done or fails. -/
theorem exists_reaches (p : Plan α) :
    ∀ c, ∃ q c', p.Reaches c q c' ∧ ((∃ a, q = done a) ∨ ∃ e, q.FailsAt c' e) := by
  induction p with
  | done a => exact fun c => ⟨done a, c, .refl _ c, .inl ⟨a, rfl⟩⟩
  | reject e h => exact fun c => ⟨reject e h, c, .refl _ c, .inr ⟨e, .rejects h c⟩⟩
  | read r next ih =>
    intro c
    obtain ⟨-, reply, hmet⟩ | ⟨hshort, -⟩ := r.decode_cases c
    · obtain ⟨q, c', hreaches, hend⟩ := ih reply (c.advance r.size)
      exact ⟨q, c', .read hmet hreaches, hend⟩
    · exact ⟨_, c, .refl _ c, .inr ⟨_, .short next hshort⟩⟩

theorem forward (p : Plan α) (c : Cursor) : Forward c (p.decode c).2 := by
  obtain ⟨q, c', hreaches, ⟨a, rfl⟩ | ⟨e, hfails⟩⟩ := p.exists_reaches c
  · rw [hreaches.decode]
    exact hreaches.forward
  · rw [hreaches.decode, hfails.decode]
    exact hreaches.forward

theorem decode_error_iff (p : Plan α) (c : Cursor) (e : DecodeError) (c' : Cursor) :
    p.decode c = (.error e, c') ↔ ∃ q, p.Reaches c q c' ∧ q.FailsAt c' e := by
  constructor
  · intro h
    obtain ⟨q, mid, hreaches, ⟨a, rfl⟩ | ⟨e', hfails⟩⟩ := p.exists_reaches c
    · rw [hreaches.decode] at h
      cases h
    · rw [hreaches.decode, hfails.decode] at h
      cases h
      exact ⟨q, hreaches, hfails⟩
  · rintro ⟨q, hreaches, hfails⟩
    rw [hreaches.decode, hfails.decode]

/-- Only an unmet request for a block finds the buffer too short. -/
theorem FailsAt.of_bufferTooShort {p : Plan α} {c : Cursor} {needed available : Nat}
    (h : p.FailsAt c (.bufferTooShort needed available)) :
    (∃ next, p = read (.block needed) next) ∧ available = c.remaining ∧ c.remaining < needed := by
  generalize he : DecodeError.bufferTooShort needed available = e at h
  cases h with
  | @short r next _ hshort =>
    cases r with
    | byte => cases he
    | block n =>
      cases he
      exact ⟨⟨next, rfl⟩, rfl, hshort⟩
  | rejects hviolation _ =>
    subst he
    cases hviolation

end Plan

/-! ## Plans of decoders -/

structure Planned {α : Type} (d : Decoder α) where
  plan : Plan α
  decode_plan : plan.decode = d

namespace Planned

variable {α β : Type}

protected def pure (a : α) : Planned (Pure.pure a) := ⟨.done a, rfl⟩

def fail {e : DecodeError} (h : e.Violation) : Planned (Decoder.fail e : Decoder α) :=
  ⟨.reject e h, rfl⟩

protected def bind {d : Decoder α} {next : α → Decoder β} (p : Planned d)
    (q : ∀ a, Planned (next a)) : Planned (d >>= next) where
  plan := p.plan.bind fun a => (q a).plan
  decode_plan := by
    have hnext : (fun a => (q a).plan.decode) = next := funext fun a => (q a).decode_plan
    rw [Plan.decode_bind, p.decode_plan, hnext]

protected def ite {d d' : Decoder α} (P : Prop) [Decidable P] (p : Planned d) (q : Planned d') :
    Planned (if P then d else d') where
  plan := if P then p.plan else q.plan
  decode_plan := by
    split_ifs
    · exact p.decode_plan
    · exact q.decode_plan

def request (r : Request) : Planned r.decode where
  plan := .read r .done
  decode_plan := by
    funext c
    simp only [Plan.decode, Decoder.bind_apply]
    cases r.decode c with
    | mk result c' => cases result <;> rfl

def byte : Planned Decoder.byte := request .byte

def take (n : Nat) : Planned (Decoder.take n) := request (.block n)

def signedByte : Planned Decoder.signedByte := .bind byte fun _ => .pure _

def skip (n : Nat) : Planned (Decoder.skip n) := .bind (take n) fun _ => .pure ()

end Planned

end KeyOrder
