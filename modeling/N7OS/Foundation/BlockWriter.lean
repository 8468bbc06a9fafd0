import Mathlib.Data.List.Basic

/-! # A writer that collects symbols in blocks

Symbols wait until there are `capacity` of them. A symbol that finds no room, or
that is not to wait, sends those waiting as one block and follows in a block of
its own.
-/
namespace BlockWriter

variable {α : Type*} (direct : α → Prop) [DecidablePred direct] (capacity : ℕ)

structure Writer (α : Type*) where
  blocks : List (List α)
  waiting : List α

/-- What has been sent and what waits, in this order. -/
def Writer.symbols (w : Writer α) : List α := w.blocks.flatten ++ w.waiting

def Writer.flush (w : Writer α) : Writer α := ⟨w.blocks ++ [w.waiting], []⟩

def Writer.put (w : Writer α) (c : α) : Writer α :=
  if direct c ∨ capacity ≤ w.waiting.length then { w.flush with blocks := w.flush.blocks ++ [[c]] }
  else { w with waiting := w.waiting ++ [c] }

def Writer.close (w : Writer α) : Writer α := if w.waiting = [] then w else w.flush

@[simp] theorem symbols_flush (w : Writer α) : w.flush.symbols = w.symbols := by
  simp [Writer.flush, Writer.symbols]

@[simp] theorem symbols_put (w : Writer α) (c : α) : (w.put direct capacity c).symbols = w.symbols ++ [c] := by
  unfold Writer.put
  split <;> simp [Writer.flush, Writer.symbols]

theorem symbols_run (w : Writer α) (cs : List α) :
    (cs.foldl (Writer.put direct capacity) w).symbols = w.symbols ++ cs := by
  induction cs generalizing w with
  | nil => simp
  | cons c cs ih => simp [ih]

/-- Nothing is left when the writer is closed. -/
theorem blocks_close (w : Writer α) : w.close.blocks.flatten = w.symbols := by
  unfold Writer.close
  split
  · next h => simp [Writer.symbols, h]
  · simp [Writer.flush, Writer.symbols]

/-- The blocks that a text is sent in. -/
def blocks (cs : List α) : List (List α) := (cs.foldl (Writer.put direct capacity) ⟨[], []⟩).close.blocks

theorem flatten_blocks (cs : List α) : (blocks direct capacity cs).flatten = cs := by
  rw [blocks, blocks_close, symbols_run]
  rfl

/-- What has been sent before stays in front. -/
theorem foldl_put_sent (sent : List (List α)) (w : Writer α) (cs : List α) :
    cs.foldl (Writer.put direct capacity) ⟨sent ++ w.blocks, w.waiting⟩ =
      ⟨sent ++ (cs.foldl (Writer.put direct capacity) w).blocks, (cs.foldl (Writer.put direct capacity) w).waiting⟩ := by
  induction cs generalizing w with
  | nil => rfl
  | cons c cs ih =>
    rw [List.foldl_cons, List.foldl_cons, ← ih]
    congr 1
    unfold Writer.put
    split <;> simp [Writer.flush]

theorem close_sent (sent : List (List α)) (w : Writer α) :
    (⟨sent ++ w.blocks, w.waiting⟩ : Writer α).close.blocks = sent ++ w.close.blocks := by
  unfold Writer.close
  split <;> simp [Writer.flush]

/-- Behind a symbol that does not wait the text goes on as from its start. -/
theorem blocks_append {c : α} (hc : direct c) (cs ds : List α) :
    blocks direct capacity (cs ++ [c] ++ ds) = blocks direct capacity (cs ++ [c]) ++ blocks direct capacity ds := by
  have hsent : ∃ sent, (cs ++ [c]).foldl (Writer.put direct capacity) ⟨[], []⟩ = ⟨sent, []⟩ := by
    rw [List.foldl_append, List.foldl_cons, List.foldl_nil, Writer.put, if_pos (.inl hc)]
    exact ⟨_, rfl⟩
  obtain ⟨sent, hsent⟩ := hsent
  have hclosed : (⟨sent, []⟩ : Writer α).close.blocks = sent := congrArg Writer.blocks (if_pos rfl)
  have hrest := foldl_put_sent direct capacity sent ⟨[], []⟩ ds
  rw [List.append_nil] at hrest
  rw [blocks, blocks, blocks, List.foldl_append, hsent, hrest, hclosed, close_sent]

section
variable {β : Type*} (f : α → β) {direct' : β → Prop} [DecidablePred direct'] (h : ∀ c, direct' (f c) ↔ direct c)

/-- The same with other symbols. -/
def Writer.map (w : Writer α) : Writer β := ⟨w.blocks.map (List.map f), w.waiting.map f⟩

theorem close_map (w : Writer α) : (w.map f).close = w.close.map f := by
  by_cases hw : w.waiting = []
  · simp [Writer.close, Writer.map, hw]
  · simp [Writer.close, Writer.map, Writer.flush, hw]

include h

theorem put_map (w : Writer α) (c : α) : (w.map f).put direct' capacity (f c) = (w.put direct capacity c).map f := by
  unfold Writer.put Writer.map
  simp only [h, List.length_map]
  split <;> simp [Writer.flush]

/-- The blocks depend only on which symbols do not wait. -/
theorem blocks_map (cs : List α) :
    blocks direct' capacity (cs.map f) = (blocks direct capacity cs).map (List.map f) := by
  have hfold (w : Writer α) : (cs.map f).foldl (Writer.put direct' capacity) (w.map f) =
      (cs.foldl (Writer.put direct capacity) w).map f := by
    induction cs generalizing w with
    | nil => rfl
    | cons c cs ih => rw [List.map_cons, List.foldl_cons, List.foldl_cons, put_map direct capacity f h, ih]
  have hmap := congrArg Writer.close (hfold ⟨[], []⟩)
  rw [close_map] at hmap
  exact congrArg Writer.blocks hmap

end

theorem waiting_put (w : Writer α) (c : α) :
    (w.put direct capacity c).waiting.length ≤ capacity := by
  unfold Writer.put
  split
  · simp [Writer.flush]
  · next hroom =>
    simp only [List.length_append, List.length_singleton]
    omega

end BlockWriter
