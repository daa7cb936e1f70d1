/-
# Decoding reads the layout

`DnsPacket::from_buffer` yields a packet exactly when the bytes have its layout
(`ReadableBuffer.reads_fromBuffer`), whatever the kind of the buffer: what is used of a buffer are the
laws of `ReadableBuffer`.  The kinds differ in one respect only, whether a range of bytes may end
with the last byte there is; this is the `slack` of the kind.
-/
import Ruvname.Layout

open PacketBuffer

variable {β α γ : Type} [PacketBuffer β]

/-! ## Reading methods -/

/-- A relation between the bytes there are, a position, a result and the position after it. -/
abbrev Format (α : Type) := List UInt8 → ℕ → α → ℕ → Prop

/-- The method yields what the format says, and leaves the bytes as they are. -/
structure Reads (contents : β → List UInt8) (m : BufferM β α) (F : Format α) : Prop where
  sound : ∀ b a t, m.Yields b a t → contents t = contents b ∧ F (contents b) (pos b) a (pos t)
  complete : ∀ b a q, F (contents b) (pos b) a q →
    ∃ t, m.Yields b a t ∧ contents t = contents b ∧ pos t = q

namespace Reads

variable {contents : β → List UInt8} {m : BufferM β α} {f : α → BufferM β γ}
  {F F' : Format α} {G : α → Format γ}

/-- A format may be replaced by an equivalent one. -/
theorem congr (h : Reads contents m F) (heq : ∀ data p a q, F data p a q ↔ F' data p a q) :
    Reads contents m F' where
  sound b a t hm := by
    obtain ⟨hc, hF⟩ := h.sound b a t hm
    exact ⟨hc, (heq _ _ _ _).mp hF⟩
  complete b a q hF := h.complete b a q ((heq _ _ _ _).mpr hF)

/-- Nothing is read for a result that is there. -/
theorem pure (a : α) : Reads contents (Pure.pure a : BufferM β α) fun _ p b q => b = a ∧ q = p where
  sound b c t hm := by
    obtain ⟨rfl, rfl⟩ := Procedure.yields_pure.mp hm
    exact ⟨rfl, rfl, rfl⟩
  complete b c q := by
    rintro ⟨rfl, rfl⟩
    exact ⟨b, Procedure.yields_pure.mpr ⟨rfl, rfl⟩, rfl, rfl⟩

/-- One reading method after another. -/
theorem bind (hm : Reads contents m F) (hf : ∀ a, Reads contents (f a) (G a)) :
    Reads contents (m >>= f) fun data p c q => ∃ a r, F data p a r ∧ G a data r c q where
  sound b c t h := by
    obtain ⟨a, u, ha, hc⟩ := Procedure.yields_bind.mp h
    obtain ⟨hbu, hF⟩ := hm.sound b a u ha
    obtain ⟨hut, hG⟩ := (hf a).sound u c t hc
    rw [hbu] at hut hG
    exact ⟨hut, a, pos u, hF, hG⟩
  complete b c q := by
    rintro ⟨a, r, hF, hG⟩
    obtain ⟨u, ha, hbu, rfl⟩ := hm.complete b a r hF
    rw [← hbu] at hG
    obtain ⟨t, hc, hut, rfl⟩ := (hf a).complete u c q hG
    exact ⟨t, Procedure.yields_bind.mpr ⟨a, u, ha, hc⟩, hut.trans hbu, rfl⟩

/-- A result computed from what is read. -/
theorem map (hm : Reads contents m F) (g : α → γ) :
    Reads contents (m >>= fun a => Pure.pure (g a)) fun data p c q => ∃ a, F data p a q ∧ c = g a :=
  (hm.bind fun a => pure (g a)).congr fun data p c q => by
    constructor
    · rintro ⟨a, r, hF, rfl, rfl⟩
      exact ⟨a, hF, rfl⟩
    · rintro ⟨a, hF, rfl⟩
      exact ⟨a, q, hF, rfl, rfl⟩

/-- The position is the one there is. -/
theorem getPos : Reads contents (PacketBuffer.getPos : BufferM β ℕ)
    fun _ p a q => a = p ∧ q = p where
  sound b a t h := by
    obtain ⟨rfl, rfl⟩ := Procedure.yields_gets.mp h
    exact ⟨rfl, rfl, rfl⟩
  complete b a q := by
    rintro ⟨rfl, rfl⟩
    exact ⟨b, Procedure.yields_gets.mpr ⟨rfl, rfl⟩, rfl, rfl⟩

/-- A computation reads nothing. -/
theorem exec (x : Exec α) : Reads contents (Procedure.exec x : BufferM β α)
    fun _ p a q => x = .ok a ∧ q = p where
  sound b a t h := by
    obtain ⟨hx, rfl⟩ := Procedure.yields_exec.mp h
    exact ⟨rfl, hx, rfl⟩
  complete b a q := by
    rintro ⟨hx, rfl⟩
    exact ⟨b, Procedure.yields_exec.mpr ⟨hx, rfl⟩, rfl, rfl⟩

/-- The same several times. -/
theorem times {item : Format α} (hm : Reads contents m item) (n : ℕ) :
    Reads contents (m.times n) fun data p as q => as.length = n ∧ ManyAt (item data) p as q := by
  induction n with
  | zero =>
    refine (pure []).congr fun data p as q => ?_
    constructor
    · rintro ⟨rfl, rfl⟩
      exact ⟨rfl, .nil⟩
    · rintro ⟨hlength, hmany⟩
      rw [List.length_eq_zero_iff] at hlength
      subst hlength
      cases hmany
      exact ⟨rfl, rfl⟩
  | succ n ih =>
    refine (hm.bind fun a => ih.map fun as => a :: as).congr fun data p as q => ?_
    constructor
    · rintro ⟨a, r, hfirst, as, ⟨hlength, hrest⟩, rfl⟩
      exact ⟨by rw [List.length_cons, hlength], .cons hfirst hrest⟩
    · rintro ⟨hlength, hmany⟩
      cases hmany with
      | nil => cases hlength
      | cons hfirst hrest =>
        exact ⟨_, _, hfirst, _, ⟨Nat.succ_injective hlength, hrest⟩, rfl⟩

end Reads

/-- What reading from a kind of buffer comes to. -/
class ReadableBuffer (β : Type) [PacketBuffer β] where
  /-- All bytes that can be read, whether they have been or not. -/
  contents : β → List UInt8
  /-- How many bytes have to follow a range. -/
  slack : ℕ
  slack_le : slack ≤ 1
  reads_read : Reads contents (read : BufferM β UInt8) fun data p x q =>
    data[p]? = some x ∧ q = p + 1
  reads_get : ∀ i, Reads contents (get i : BufferM β UInt8) fun data p x q =>
    data[i]? = some x ∧ q = p
  reads_getRange : ∀ start len, Reads contents (getRange start len : BufferM β (List UInt8))
    fun data p xs q => RangeAt slack data start len xs ∧ q = p
  reads_seek : ∀ i, Reads contents (seek i : BufferM β Unit) fun _ _ _ q => q = i
  reads_step : ∀ n, Reads contents (step n : BufferM β Unit) fun _ p _ q => q = p + n

/-! ## Properties of reading methods -/

section

variable [ReadableBuffer β] {J : Procedure.Judgement β BufferError}

/-- When a reading method has a property, in terms of the bytes and the position. -/
def Procedure.Judgement.When (J : Procedure.Judgement β BufferError) (m : BufferM β α)
    (H : List UInt8 → ℕ → Prop) : Prop :=
  ∀ b, J.holds m b ↔ H (ReadableBuffer.contents b) (pos b)

namespace Procedure.Judgement.When

variable {m : BufferM β α} {f : α → BufferM β γ} {H H' : List UInt8 → ℕ → Prop}
  {K : α → List UInt8 → ℕ → Prop} {F : Format α}

/-- The condition may be replaced by an equivalent one. -/
theorem congr (h : J.When m H) (heq : ∀ data p, H data p ↔ H' data p) : J.When m H' :=
  fun b => (h b).trans (heq _ _)

/-- A method that always has the property. -/
theorem always (h : ∀ b, J.holds m b) : J.When m fun _ _ => True :=
  fun b => iff_of_true (h b) trivial

/-- One reading method after another. -/
theorem bind (hm : J.When m H) (hr : Reads ReadableBuffer.contents m F)
    (hf : ∀ a, J.When (f a) (K a)) :
    J.When (m >>= f) fun data p => H data p ∧ ∀ a q, F data p a q → K a data q := by
  intro b
  rw [J.holds_bind, hm b]
  refine and_congr_right fun _ => ?_
  constructor
  · intro h a q hF
    obtain ⟨t, ht, hcontents, rfl⟩ := hr.complete b a q hF
    rw [← hcontents]
    exact (hf a t).mp (h a t ht)
  · intro h a t ht
    obtain ⟨hcontents, hF⟩ := hr.sound b a t ht
    refine (hf a t).mpr ?_
    rw [hcontents]
    exact h a _ hF

/-- The second part always has the property. -/
theorem bind_always (hm : J.When m H) (hf : ∀ a b, J.holds (f a) b) : J.When (m >>= f) H := by
  intro b
  rw [J.holds_bind, hm b]
  exact and_iff_left fun a t _ => hf a t

/-- The first part always has the property. -/
theorem always_bind (hm : ∀ b, J.holds m b) (hr : Reads ReadableBuffer.contents m F)
    (hf : ∀ a, J.When (f a) (K a)) :
    J.When (m >>= f) fun data p => ∀ a q, F data p a q → K a data q :=
  ((always hm).bind hr hf).congr fun _ _ => by simp

/-- A repetition has the property if every item that is reached has. -/
theorem times {item : Format α} (hm : J.When m H) (hr : Reads ReadableBuffer.contents m item)
    (n : ℕ) :
    J.When (m.times n) fun data p =>
      ∀ as q, ManyAt (item data) p as q → as.length < n → H data q := by
  induction n with
  | zero => exact (always fun b => J.holds_pure [] b).congr fun _ _ => by simp
  | succ n ih =>
    refine (hm.bind hr fun a => ih.bind_always fun as b => J.holds_pure (a :: as) b).congr
      fun data p => ?_
    constructor
    · rintro ⟨hfirst, hrest⟩ as q hmany hlt
      cases hmany with
      | nil => exact hfirst
      | cons first rest => exact hrest _ _ first _ _ rest (by rw [List.length_cons] at hlt; omega)
    · intro h
      refine ⟨h [] p .nil (Nat.succ_pos n), fun a q first as r rest hlt => ?_⟩
      exact h (a :: as) r (.cons first rest) (by rw [List.length_cons]; omega)

end Procedure.Judgement.When

end

/-- Something about all items that are reached, over two sections. -/
theorem forall_manyAt_add {item : ℕ → α → ℕ → Prop} {P : ℕ → Prop} {p a b : ℕ} :
    (∀ as q, ManyAt item p as q → as.length < a + b → P q) ↔
      (∀ as q, ManyAt item p as q → as.length < a → P q) ∧
      ∀ as r, as.length = a ∧ ManyAt item p as r →
        ∀ bs q, ManyAt item r bs q → bs.length < b → P q := by
  constructor
  · intro h
    refine ⟨fun as q hmany hlt => h as q hmany (by omega), ?_⟩
    rintro as r ⟨rfl, has⟩ bs q hbs hlt
    exact h (as ++ bs) q (ManyAt.append_iff.mpr ⟨r, has, hbs⟩)
      (by rw [List.length_append]; omega)
  · rintro ⟨hfirst, hsecond⟩ as q hmany hlt
    by_cases hshort : as.length < a
    · exact hfirst as q hmany hshort
    · rw [← List.take_append_drop a as, ManyAt.append_iff] at hmany
      obtain ⟨r, hfront, hback⟩ := hmany
      refine hsecond _ r ⟨?_, hfront⟩ _ q hback ?_
      · rw [List.length_take]
        omega
      · rw [List.length_drop]
        omega

/-! ## The kinds of buffers -/

/-- A byte is had where there is one. -/
theorem indexByte_eq_ok {xs : List UInt8} {i : ℕ} {x : UInt8} :
    indexByte xs i = .ok x ↔ xs[i]? = some x := by
  unfold indexByte
  cases h : xs[i]? with
  | none => simp
  | some y => simp

/-- A slice is had where there are enough bytes. -/
theorem sliceBytes_eq_ok {xs ys : List UInt8} {start len : ℕ} :
    sliceBytes xs start len = .ok ys ↔ RangeAt 0 xs start len ys := by
  unfold sliceBytes RangeAt
  split_ifs with h
  · simp [h, eq_comm]
  · simp [h]

/-- A change of the position. -/
theorem reads_modify {contents : β → List UInt8} {f : β → β} {g : ℕ → ℕ}
    (hcontents : ∀ b, contents (f b) = contents b) (hpos : ∀ b, pos (f b) = g (pos b)) :
    Reads contents (Procedure.modify f : BufferM β Unit) fun _ p _ q => q = g p where
  sound b u t h := by
    obtain rfl := Procedure.yields_modify.mp h
    exact ⟨hcontents b, hpos b⟩
  complete b u q := by
    rintro rfl
    exact ⟨f b, Procedure.yields_modify.mpr rfl, hcontents b, hpos b⟩

/-- A lookup that leaves the buffer as it is. -/
theorem reads_act {contents : β → List UInt8} {f : β → Exec α} {F : List UInt8 → α → Prop}
    (h : ∀ b a, f b = .ok a ↔ F (contents b) a) :
    Reads contents (.act fun b => do
      let res ← f b
      .ok (.ok (res, b)) : BufferM β α) fun data p a q => F data a ∧ q = p where
  sound b a t hm := by
    obtain ⟨a', ha, hr⟩ := Exec.bind_eq_ok.mp (Procedure.yields_act.mp hm)
    cases hr
    exact ⟨rfl, (h b a).mp ha, rfl⟩
  complete b a q := by
    rintro ⟨hF, rfl⟩
    exact ⟨b, Procedure.yields_act.mpr (Exec.bind_eq_ok.mpr ⟨a, (h b a).mpr hF, rfl⟩), rfl, rfl⟩

instance : ReadableBuffer VectorPacketBuffer where
  contents b := b.buffer
  slack := 0
  slack_le := Nat.zero_le 1
  reads_read :=
    { sound := fun b x t h => by
        obtain ⟨x', hx, hr⟩ := Exec.bind_eq_ok.mp (Procedure.yields_act.mp h)
        cases hr
        exact ⟨rfl, indexByte_eq_ok.mp hx, rfl⟩
      complete := fun b x q => by
        rintro ⟨hx, rfl⟩
        refine ⟨{ b with pos := b.pos + 1 }, Procedure.yields_act.mpr ?_, rfl, rfl⟩
        exact Exec.bind_eq_ok.mpr ⟨x, indexByte_eq_ok.mpr hx, rfl⟩ }
  reads_get _ := reads_act fun _ _ => indexByte_eq_ok
  reads_getRange _ _ := reads_act fun _ _ => sliceBytes_eq_ok
  reads_seek _ := reads_modify (fun _ => rfl) fun _ => rfl
  reads_step _ := reads_modify (fun _ => rfl) fun _ => rfl

/-- What is pulled from the stream goes to the end of the buffer. -/
theorem pull_eq_ok {n : ℕ} {stream buffer stream' buffer' : List UInt8}
    (h : pull n stream buffer = .ok (stream', buffer')) :
    buffer' ++ stream' = buffer ++ stream ∧ n ≤ buffer'.length := by
  induction stream generalizing buffer with
  | nil =>
    rw [pull] at h
    split_ifs at h with hn
    cases h
    exact ⟨rfl, hn⟩
  | cons x stream ih =>
    rw [pull] at h
    split_ifs at h with hn
    · cases h
      exact ⟨rfl, hn⟩
    · obtain ⟨heq, hlen⟩ := ih h
      exact ⟨by rw [heq, List.append_assoc, List.singleton_append], hlen⟩

/-- As many bytes as there are can be had. -/
theorem exists_pull {n : ℕ} {stream buffer : List UInt8} (h : n ≤ buffer.length + stream.length) :
    ∃ r, pull n stream buffer = .ok r := by
  induction stream generalizing buffer with
  | nil => exact ⟨_, if_pos h⟩
  | cons x stream ih =>
    rw [pull]
    split_ifs with hn
    · exact ⟨_, rfl⟩
    · apply ih
      rw [List.length_cons] at h
      rw [List.length_append, List.length_singleton]
      omega

namespace StreamPacketBuffer

/-- All bytes of a stream. -/
def contents (b : StreamPacketBuffer) : List UInt8 := b.buffer ++ b.stream

/-- Filling the buffer changes neither the bytes nor the position. -/
theorem yields_fill {n : ℕ} {b t : StreamPacketBuffer} {u : Unit} (h : (fill n).Yields b u t) :
    t.contents = b.contents ∧ t.pos = b.pos ∧ n ≤ t.buffer.length := by
  have hrun := Procedure.yields_act.mp h
  cases hpull : pull n b.stream b.buffer with
  | error e =>
    rw [hpull] at hrun
    cases hrun
  | ok r =>
    rw [hpull] at hrun
    cases hrun
    obtain ⟨heq, hlen⟩ := pull_eq_ok hpull
    exact ⟨heq, rfl, hlen⟩

/-- The buffer can be filled with as many bytes as there are. -/
theorem exists_yields_fill {n : ℕ} {b : StreamPacketBuffer} (h : n ≤ b.contents.length) :
    ∃ t, (fill n).Yields b () t := by
  rw [contents, List.length_append] at h
  obtain ⟨r, hr⟩ := exists_pull h
  exact ⟨{ b with stream := r.1, buffer := r.2 }, Procedure.yields_act.mpr (by rw [hr])⟩

/-- Once the stream has been read far enough, a lookup finds what the stream holds. -/
theorem reads_fill {n : ℕ} {f : StreamPacketBuffer → Exec α} {F : List UInt8 → α → Prop}
    (hF : ∀ data a, F data a → n ≤ data.length)
    (h : ∀ b a, n ≤ b.buffer.length → (f b = .ok a ↔ F b.contents a)) :
    Reads contents (do
      fill n
      .act fun b => do
        let res ← f b
        .ok (.ok (res, b))) fun data p a q => F data a ∧ q = p where
  sound b a t hm := by
    obtain ⟨_, u, hu, hrest⟩ := Procedure.yields_bind.mp hm
    obtain ⟨hcontents, hpos, hlen⟩ := yields_fill hu
    obtain ⟨a', ha, hr⟩ := Exec.bind_eq_ok.mp (Procedure.yields_act.mp hrest)
    cases hr
    rw [h t a hlen, hcontents] at ha
    exact ⟨hcontents, ha, hpos⟩
  complete b a q := by
    rintro ⟨ha, rfl⟩
    obtain ⟨u, hu⟩ := exists_yields_fill (hF _ _ ha)
    obtain ⟨hcontents, hpos, hlen⟩ := yields_fill hu
    refine ⟨u, Procedure.yields_bind.mpr ⟨(), u, hu, Procedure.yields_act.mpr ?_⟩, hcontents, hpos⟩
    rw [← hcontents, ← h u a hlen] at ha
    exact Exec.bind_eq_ok.mpr ⟨a, ha, rfl⟩

/-- What is in the buffer comes first. -/
theorem getElem?_contents {b : StreamPacketBuffer} {i : ℕ} (h : i < b.buffer.length) :
    b.contents[i]? = b.buffer[i]? := List.getElem?_append_left h

/-- So does a range inside the buffer. -/
theorem rangeAt_contents {b : StreamPacketBuffer} {start len : ℕ} {xs : List UInt8}
    (h : start + len ≤ b.buffer.length) :
    RangeAt 0 b.contents start len xs ↔ RangeAt 0 b.buffer start len xs := by
  have hrange : (b.contents.drop start).take len = (b.buffer.drop start).take len := by
    rw [contents, List.drop_append_of_le_length (by omega), List.take_append_of_le_length]
    rw [List.length_drop]
    omega
  rw [RangeAt, RangeAt, hrange, contents, List.length_append]
  constructor
  · rintro ⟨-, rfl⟩
    exact ⟨h, rfl⟩
  · rintro ⟨-, rfl⟩
    exact ⟨by omega, rfl⟩

end StreamPacketBuffer

/-- A byte that is there is inside the data. -/
theorem lt_length_of_getElem? {data : List UInt8} {i : ℕ} {x : UInt8} (h : data[i]? = some x) :
    i < data.length := (List.getElem?_eq_some_iff.mp h).1

instance : ReadableBuffer StreamPacketBuffer where
  contents := StreamPacketBuffer.contents
  slack := 0
  slack_le := Nat.zero_le 1
  reads_read :=
    { sound := fun b x t h => by
        obtain ⟨p, u, hp, h⟩ := Procedure.yields_bind.mp h
        obtain ⟨rfl, rfl⟩ := Procedure.yields_gets.mp hp
        obtain ⟨_, v, hv, hx⟩ := Procedure.yields_bind.mp h
        obtain ⟨hcontents, hpos, hlen⟩ := StreamPacketBuffer.yields_fill hv
        obtain ⟨x', hx', hr⟩ := Exec.bind_eq_ok.mp (Procedure.yields_act.mp hx)
        cases hr
        rw [indexByte_eq_ok, hpos, ← StreamPacketBuffer.getElem?_contents hlen, hcontents] at hx'
        exact ⟨hcontents, hx', congrArg (· + 1) hpos⟩
      complete := fun b x q => by
        rintro ⟨hx, rfl⟩
        obtain ⟨v, hv⟩ := StreamPacketBuffer.exists_yields_fill (lt_length_of_getElem? hx)
        obtain ⟨hcontents, hpos, hlen⟩ := StreamPacketBuffer.yields_fill hv
        refine ⟨{ v with pos := v.pos + 1 }, ?_, hcontents, congrArg (· + 1) hpos⟩
        refine Procedure.yields_bind.mpr ⟨_, b, Procedure.yields_gets.mpr ⟨rfl, rfl⟩, ?_⟩
        refine Procedure.yields_bind.mpr ⟨(), v, hv, Procedure.yields_act.mpr ?_⟩
        refine Exec.bind_eq_ok.mpr ⟨x, indexByte_eq_ok.mpr ?_, rfl⟩
        rw [← StreamPacketBuffer.getElem?_contents (hpos ▸ hlen), hcontents, hpos]
        exact hx }
  reads_get i := StreamPacketBuffer.reads_fill (fun _ _ h => lt_length_of_getElem? h)
    fun b x hlen => by rw [indexByte_eq_ok, StreamPacketBuffer.getElem?_contents hlen]
  reads_getRange start len := StreamPacketBuffer.reads_fill (fun _ _ h => h.1)
    fun b xs hlen => by rw [sliceBytes_eq_ok, StreamPacketBuffer.rangeAt_contents hlen]
  reads_seek _ := reads_modify (fun _ => rfl) fun _ => rfl
  reads_step _ := reads_modify (fun _ => rfl) fun _ => rfl

theorem BytePacketBuffer.getElem?_toList {b : BytePacketBuffer} {i : ℕ} (h : i < 512) :
    b.buf.toList[i]? = some b.buf[i] := by
  rw [List.getElem?_eq_getElem (by rw [Vector.length_toList]; exact h), Vector.getElem_toList]

instance : ReadableBuffer BytePacketBuffer where
  contents b := b.buf.toList
  slack := 1
  slack_le := le_rfl
  reads_read :=
    { sound := fun b x t h => by
        have hrun := Procedure.yields_act.mp h
        split_ifs at hrun with hpos
        · cases hrun
          exact ⟨rfl, BytePacketBuffer.getElem?_toList hpos, rfl⟩
        · cases hrun
      complete := fun b x q => by
        rintro ⟨hx, rfl⟩
        have hpos : b.pos < 512 := by
          have hlt := lt_length_of_getElem? hx
          rwa [Vector.length_toList] at hlt
        refine ⟨{ b with pos := b.pos + 1 }, Procedure.yields_act.mpr ?_, rfl, rfl⟩
        rw [dif_pos hpos]
        rw [show (pos b : ℕ) = b.pos from rfl, BytePacketBuffer.getElem?_toList hpos,
          Option.some.injEq] at hx
        rw [hx] }
  reads_get i :=
    { sound := fun b x t h => by
        have hrun := Procedure.yields_act.mp h
        split_ifs at hrun with hi
        · cases hrun
          exact ⟨rfl, BytePacketBuffer.getElem?_toList hi, rfl⟩
        · cases hrun
      complete := fun b x q => by
        rintro ⟨hx, rfl⟩
        have hi : i < 512 := by
          have hlt := lt_length_of_getElem? hx
          rwa [Vector.length_toList] at hlt
        refine ⟨b, Procedure.yields_act.mpr ?_, rfl, rfl⟩
        rw [BytePacketBuffer.getElem?_toList hi, Option.some.injEq] at hx
        rw [dif_pos hi, hx] }
  reads_getRange start len :=
    { sound := fun b xs t h => by
        have hrun := Procedure.yields_act.mp h
        split_ifs at hrun with hlen
        · cases hrun
        · obtain ⟨xs', hxs, hr⟩ := Exec.bind_eq_ok.mp hrun
          cases hr
          obtain ⟨-, rfl⟩ := sliceBytes_eq_ok.mp hxs
          refine ⟨rfl, ⟨?_, rfl⟩, rfl⟩
          rw [Vector.length_toList]
          omega
      complete := fun b xs q => by
        rintro ⟨⟨hlen, rfl⟩, rfl⟩
        rw [Vector.length_toList] at hlen
        refine ⟨b, Procedure.yields_act.mpr ?_, rfl, rfl⟩
        rw [if_neg (by omega)]
        refine Exec.bind_eq_ok.mpr ⟨_, sliceBytes_eq_ok.mpr ⟨?_, rfl⟩, rfl⟩
        rw [Vector.length_toList]
        omega }
  reads_seek _ := reads_modify (fun _ => rfl) fun _ => rfl
  reads_step _ := reads_modify (fun _ => rfl) fun _ => rfl

/-! ## The common methods -/

namespace ReadableBuffer

variable [ReadableBuffer β]

/-- Two bytes, the higher one first. -/
theorem reads_readU16 : Reads contents (readU16 : BufferM β UInt16) fun data p v q =>
    U16At data p v ∧ q = p + 2 :=
  (reads_read.bind fun x => reads_read.map fun y : UInt8 => (x.toUInt16 <<< 8) ||| y.toUInt16).congr
    fun data p v q => by
      constructor
      · rintro ⟨x, _, ⟨hx, rfl⟩, y, ⟨hy, rfl⟩, rfl⟩
        exact ⟨⟨x, y, hx, hy, rfl⟩, rfl⟩
      · rintro ⟨⟨x, y, hx, hy, rfl⟩, rfl⟩
        exact ⟨x, _, ⟨hx, rfl⟩, y, ⟨hy, rfl⟩, rfl⟩

/-- Four bytes, the highest one first. -/
theorem reads_readU32 : Reads contents (readU32 : BufferM β UInt32) fun data p v q =>
    U32At data p v ∧ q = p + 4 :=
  (reads_read.bind fun x => reads_read.bind fun y => reads_read.bind fun z =>
    reads_read.map fun w : UInt8 =>
      (x.toUInt32 <<< 24) ||| (y.toUInt32 <<< 16) ||| (z.toUInt32 <<< 8) ||| w.toUInt32).congr
    fun data p v q => by
      constructor
      · rintro ⟨x, _, ⟨hx, rfl⟩, y, _, ⟨hy, rfl⟩, z, _, ⟨hz, rfl⟩, w, ⟨hw, rfl⟩, rfl⟩
        exact ⟨⟨x, y, z, w, hx, hy, hz, hw, rfl⟩, rfl⟩
      · rintro ⟨⟨x, y, z, w, hx, hy, hz, hw, rfl⟩, rfl⟩
        exact ⟨x, _, ⟨hx, rfl⟩, y, _, ⟨hy, rfl⟩, z, _, ⟨hz, rfl⟩, w, ⟨hw, rfl⟩, rfl⟩

/-! ## Names -/

/-- One round of `read_qname` at a position of the buffer. -/
inductive RoundAt (U : Unicode) (slack : ℕ) (data : List UInt8) (c : NameCursor) :
    ℕ → NameCursor ⊕ NameCursor → ℕ → Prop
  | pointer {p : ℕ} {len b2 : UInt8} (hlen : data[c.pos]? = some len) (hpointer : isPointer len)
      (hb2 : data[c.pos + 1]? = some b2) :
      RoundAt U slack data c p (.inl { c with pos := pointerOffset len b2, jumped := true })
        (if c.jumped then p else c.pos + 2)
  | stop {p : ℕ} (hlen : data[c.pos]? = some 0) :
      RoundAt U slack data c p (.inr { c with pos := c.pos + 1 }) p
  | label {p : ℕ} {len : UInt8} {xs : List UInt8} (hlen : data[c.pos]? = some len)
      (hpointer : ¬ isPointer len) (hne : len ≠ 0)
      (range : RangeAt slack data (c.pos + 1) len.toNat xs) :
      RoundAt U slack data c p (.inl { c with
        pos := c.pos + 1 + len.toNat
        delim := "."
        outstr := c.outstr ++ c.delim ++ U.label xs }) p

/-- The position is set only if no pointer has been followed. -/
theorem reads_seekUnless (jumped : Bool) (i : ℕ) :
    Reads contents (seekUnless jumped i : BufferM β Unit) fun _ p _ q =>
      q = if jumped then p else i := by
  cases jumped with
  | false => exact (reads_seek i).congr fun _ _ _ _ => by simp
  | true => exact (Reads.pure ()).congr fun _ _ _ _ => by simp

/-- One round of the loop over the labels. -/
theorem reads_readLabel (U : Unicode) (c : NameCursor) :
    Reads contents (readLabel U c : BufferM β (NameCursor ⊕ NameCursor)) fun data p r q =>
      RoundAt U (slack β) data c p r q := by
  -- what happens after the length, by the kind of length
  let G (len : UInt8) : Format (NameCursor ⊕ NameCursor) := fun data p r q =>
    (isPointer len ∧ ∃ b2, data[c.pos + 1]? = some b2 ∧
      r = .inl { c with pos := pointerOffset len b2, jumped := true } ∧
      q = if c.jumped then p else c.pos + 2) ∨
    (¬ isPointer len ∧ len = 0 ∧ r = .inr { c with pos := c.pos + 1 } ∧ q = p) ∨
    (¬ isPointer len ∧ len ≠ 0 ∧ ∃ xs, RangeAt (slack β) data (c.pos + 1) len.toNat xs ∧
      r = .inl { c with
        pos := c.pos + 1 + len.toNat
        delim := "."
        outstr := c.outstr ++ c.delim ++ U.label xs } ∧ q = p)
  refine ((reads_get c.pos).bind fun len => (?_ : Reads contents _ (G len))).congr ?_
  · by_cases hpointer : isPointer len
    · rw [if_pos hpointer]
      refine ((reads_seekUnless c.jumped (c.pos + 2)).bind fun _ =>
        (reads_get (c.pos + 1)).map fun b2 => _).congr fun data p r q => ?_
      constructor
      · rintro ⟨_, _, rfl, b2, ⟨hb2, rfl⟩, rfl⟩
        exact .inl ⟨hpointer, b2, hb2, rfl, rfl⟩
      · rintro (⟨-, b2, hb2, rfl, rfl⟩ | ⟨h, -⟩ | ⟨h, -⟩)
        · exact ⟨(), _, rfl, b2, ⟨hb2, rfl⟩, rfl⟩
        · exact absurd hpointer h
        · exact absurd hpointer h
    · rw [if_neg hpointer]
      by_cases hlen : len = 0
      · rw [if_pos hlen]
        refine (Reads.pure _).congr fun data p r q => ?_
        constructor
        · rintro ⟨rfl, rfl⟩
          exact .inr (.inl ⟨hpointer, hlen, rfl, rfl⟩)
        · rintro (⟨h, -⟩ | ⟨-, -, rfl, rfl⟩ | ⟨-, h, -⟩)
          · exact absurd h hpointer
          · exact ⟨rfl, rfl⟩
          · exact absurd hlen h
      · rw [if_neg hlen]
        refine ((reads_getRange (c.pos + 1) len.toNat).map fun xs => _).congr fun data p r q => ?_
        constructor
        · rintro ⟨xs, ⟨hxs, rfl⟩, rfl⟩
          exact .inr (.inr ⟨hpointer, hlen, xs, hxs, rfl, rfl⟩)
        · rintro (⟨h, -⟩ | ⟨-, h, -⟩ | ⟨-, -, xs, hxs, rfl, rfl⟩)
          · exact absurd h hpointer
          · exact absurd h hlen
          · exact ⟨xs, ⟨hxs, rfl⟩, rfl⟩
  · intro data p r q
    constructor
    · rintro ⟨len, _, ⟨hlen, rfl⟩,
        ⟨hpointer, b2, hb2, rfl, rfl⟩ | ⟨-, rfl, rfl, rfl⟩ | ⟨hpointer, hne, xs, hxs, rfl, rfl⟩⟩
      · exact .pointer hlen hpointer hb2
      · exact .stop hlen
      · exact .label hlen hpointer hne hxs
    · intro h
      cases h with
      | pointer hlen hpointer hb2 => exact ⟨_, p, ⟨hlen, rfl⟩, .inl ⟨hpointer, _, hb2, rfl, rfl⟩⟩
      | stop hlen => exact ⟨0, _, ⟨hlen, rfl⟩, .inr (.inl ⟨by decide, rfl, rfl, rfl⟩)⟩
      | label hlen hpointer hne range =>
        exact ⟨_, _, ⟨hlen, rfl⟩, .inr (.inr ⟨hpointer, hne, _, range, rfl, rfl⟩)⟩

/-- The text of labels behind a text. -/
def extendText (U : Unicode) : String → String → List (List UInt8) → String
  | _, outstr, [] => outstr
  | delim, outstr, xs :: labels => extendText U "." (outstr ++ delim ++ U.label xs) labels

/-- The labels after the first one, each after a dot. -/
theorem extendText_dot (U : Unicode) (outstr : String) (xs : List UInt8)
    (labels : List (List UInt8)) :
    extendText U "." (outstr ++ U.label xs) labels = outstr ++ U.name (xs :: labels) := by
  induction labels generalizing outstr xs with
  | nil => simp [extendText, Unicode.name]
  | cons ys labels ih =>
    rw [extendText, ih]
    simp [Unicode.name, String.intercalate_cons_cons, String.append_assoc]

/-- The first label has no dot in front. -/
theorem extendText_empty (U : Unicode) (outstr : String) (labels : List (List UInt8)) :
    extendText U "" outstr labels = outstr ++ U.name labels := by
  cases labels with
  | nil => simp [extendText, Unicode.name]
  | cons xs labels => rw [extendText, String.append_empty, extendText_dot]

/-- Where the loop of `read_qname` ends: the text of the labels has been appended, and the end of
the name is found either in the cursor or, if there was a jump, in the position of the buffer. -/
structure NameRead (U : Unicode) (c : NameCursor) (p : ℕ) (labels : List (List UInt8)) (next : ℕ)
    (c' : NameCursor) (q : ℕ) : Prop where
  outstr : c'.outstr = extendText U c.delim c.outstr labels
  jumped : c.jumped = true → c'.jumped = true ∧ q = p
  stayed : c.jumped = false → next = if c'.jumped then q else c'.pos

/-- A name starts inside the data. -/
theorem name_lt_length {data : List UInt8} {p next : ℕ} {labels : List (List UInt8)}
    (h : NameAt data p labels next) : p < data.length := by
  cases h with
  | stop hlen => exact lt_length_of_getElem? hlen
  | label hlen => exact lt_length_of_getElem? hlen
  | pointer hlen => exact lt_length_of_getElem? hlen

/-- The loop of `read_qname` yields the name that is laid out at the cursor. -/
theorem reads_nameLoop_sound (U : Unicode) {b t : β} {c c' : NameCursor}
    (h : (Procedure.loop (readLabel U) c : BufferM β NameCursor).Yields b c' t) :
    contents t = contents b ∧ ∃ labels next, NameAt (contents b) c.pos labels next ∧
      NameRead U c (pos b) labels next c' (pos t) ∧ (c'.jumped = false → pos t = pos b) := by
  refine Procedure.loop_induction (motive := fun c b c' t =>
    contents t = contents b ∧ ∃ labels next, NameAt (contents b) c.pos labels next ∧
      NameRead U c (pos b) labels next c' (pos t) ∧ (c'.jumped = false → pos t = pos b)) ?_ ?_ h
  · intro c b c' t hround
    obtain ⟨hcontents, hround⟩ := (reads_readLabel U c).sound b _ t hround
    refine ⟨hcontents, ?_⟩
    generalize hr : (Sum.inr c' : NameCursor ⊕ NameCursor) = r at hround
    generalize hq : pos t = q at hround
    cases hround with
    | pointer => cases hr
    | label => cases hr
    | stop hlen =>
      cases hr
      refine ⟨[], c.pos + 1, .stop hlen, ⟨rfl, fun hj => ⟨hj, rfl⟩, fun hj => ?_⟩, fun _ => rfl⟩
      rw [hj]
      rfl
  · intro c b c₁ u c' t hround ih
    obtain ⟨hcontents, hround⟩ := (reads_readLabel U c).sound b _ u hround
    obtain ⟨hut, labels, next, hname, hread, hstay⟩ := ih
    rw [hcontents] at hut hname
    refine ⟨hut, ?_⟩
    generalize hr : (Sum.inl c₁ : NameCursor ⊕ NameCursor) = r at hround
    generalize hq : pos u = q at hround
    cases hround with
    | stop => cases hr
    | pointer hlen hpointer hb2 =>
      cases hr
      -- after a jump the position of the buffer is settled
      obtain ⟨hjumped, hpos⟩ := hread.jumped rfl
      refine ⟨labels, c.pos + 2, .pointer hlen hpointer hb2 hname, ⟨hread.outstr, fun hj => ?_,
        fun hj => ?_⟩, fun hj => ?_⟩
      · exact ⟨hjumped, by rw [hpos, hq, if_pos hj]⟩
      · rw [if_pos hjumped, hpos, hq, hj]
        rfl
      · rw [hjumped] at hj
        cases hj
    | label hlen hpointer hne range =>
      cases hr
      obtain ⟨-, rfl⟩ := range
      exact ⟨_, next, .label hlen hpointer hne hname,
        ⟨hread.outstr, fun hj => ⟨(hread.jumped hj).1, (hread.jumped hj).2.trans hq⟩, hread.stayed⟩,
        fun hj => (hstay hj).trans hq⟩

/-- A name that is laid out at the cursor is yielded by the loop of `read_qname`. -/
theorem reads_nameLoop_complete (U : Unicode) {data : List UInt8} {p next : ℕ}
    {labels : List (List UInt8)} (hname : NameAt data p labels next) :
    ∀ (b : β) (c : NameCursor), contents b = data → c.pos = p →
      ∃ c' t, (Procedure.loop (readLabel U) c : BufferM β NameCursor).Yields b c' t ∧
        contents t = data ∧ NameRead U c (pos b) labels next c' (pos t) := by
  induction hname with
  | stop hlen =>
    rintro b c rfl rfl
    obtain ⟨t, ht, hcontents, hpos⟩ := (reads_readLabel U c).complete b _ _ (.stop hlen)
    refine ⟨_, t, Procedure.yields_loop.mpr (.inl ht), hcontents, ⟨rfl, ?_, ?_⟩⟩
    · exact fun hj => ⟨hj, hpos⟩
    · intro hj
      rw [hj]
      rfl
  | @label p next len labels hlen hpointer hne rest ih =>
    rintro b c rfl rfl
    have hrange := name_lt_length rest
    have hslack := slack_le (β := β)
    obtain ⟨u, hu, hcontents, hpos⟩ := (reads_readLabel U c).complete b _ _
      (.label hlen hpointer hne ⟨by omega, rfl⟩)
    obtain ⟨c', t, ht, hut, hread⟩ := ih u { c with
      pos := c.pos + 1 + len.toNat
      delim := "."
      outstr := c.outstr ++ c.delim ++ U.label _ } hcontents rfl
    rw [hpos] at hread
    exact ⟨c', t, Procedure.yields_loop.mpr (.inr ⟨_, u, hu, ht⟩), hut,
      ⟨hread.outstr, hread.jumped, hread.stayed⟩⟩
  | @pointer p next len b2 labels hlen hpointer hb2 target ih =>
    rintro b c rfl rfl
    obtain ⟨u, hu, hcontents, hpos⟩ := (reads_readLabel U c).complete b _ _
      (.pointer hlen hpointer hb2)
    obtain ⟨c', t, ht, hut, hread⟩ := ih u
      { c with pos := pointerOffset len b2, jumped := true } hcontents rfl
    obtain ⟨hjumped, hq⟩ := hread.jumped rfl
    refine ⟨c', t, Procedure.yields_loop.mpr (.inr ⟨_, u, hu, ht⟩), hut, ⟨hread.outstr, ?_, ?_⟩⟩
    · intro hj
      exact ⟨hjumped, by rw [hq, hpos, if_pos hj]⟩
    · intro hj
      rw [if_pos hjumped, hq, hpos, hj]
      rfl

/-- **`read_qname` reads names.** -/
theorem reads_readQname (U : Unicode) (outstr : String) :
    Reads contents (readQname U outstr : BufferM β String) fun data p s q =>
      ∃ labels, NameAt data p labels q ∧ s = outstr ++ U.name labels where
  sound b s t h := by
    obtain ⟨p, u, hp, h⟩ := Procedure.yields_bind.mp h
    obtain ⟨rfl, rfl⟩ := Procedure.yields_gets.mp hp
    obtain ⟨c, v, hloop, h⟩ := Procedure.yields_bind.mp h
    obtain ⟨hbv, labels, next, hname, hread, hstay⟩ := reads_nameLoop_sound U hloop
    obtain ⟨_, w, hseek, h⟩ := Procedure.yields_bind.mp h
    obtain ⟨hvw, hpos⟩ := (reads_seekUnless c.jumped c.pos).sound v _ w hseek
    obtain ⟨rfl, rfl⟩ := Procedure.yields_pure.mp h
    refine ⟨hvw.trans hbv, labels, ?_, ?_⟩
    · rw [hpos, ← hread.stayed rfl]
      exact hname
    · rw [hread.outstr]
      exact extendText_empty U outstr labels
  complete b s q := by
    rintro ⟨labels, hname, rfl⟩
    obtain ⟨c, v, hloop, hbv, hread⟩ := reads_nameLoop_complete U hname b
      ⟨pos b, false, "", outstr⟩ rfl rfl
    obtain ⟨w, hseek, hvw, hpos⟩ := (reads_seekUnless c.jumped c.pos).complete v () _ rfl
    refine ⟨w, ?_, hvw.trans hbv, hpos.trans (hread.stayed rfl).symm⟩
    refine Procedure.yields_bind.mpr ⟨_, b, Procedure.yields_gets.mpr ⟨rfl, rfl⟩, ?_⟩
    refine Procedure.yields_bind.mpr ⟨c, v, hloop, Procedure.yields_bind.mpr ⟨(), w, hseek, ?_⟩⟩
    refine Procedure.yields_pure.mpr ⟨?_, rfl⟩
    rw [hread.outstr]
    exact (extendText_empty U outstr labels).symm

/-- A name that is read into an empty text. -/
theorem reads_name (U : Unicode) :
    Reads contents (readQname U "" : BufferM β String) fun data p s q =>
      ∃ labels, NameAt data p labels q ∧ s = U.name labels :=
  (reads_readQname U "").congr fun _ _ _ _ => by simp

/-! ## Messages -/

/-- A header is twelve bytes. -/
theorem reads_header : Reads contents (DnsHeader.read : BufferM β DnsHeader)
    fun data p header q => HeaderAt data p header ∧ q = p + 12 :=
  (reads_readU16.bind fun id => reads_readU16.bind fun flags => reads_readU16.bind fun questions =>
    reads_readU16.bind fun answers => reads_readU16.bind fun authoritativeEntries =>
    reads_readU16.map fun resourceEntries =>
      DnsHeader.ofWords id flags questions answers authoritativeEntries resourceEntries).congr
    fun data p header q => by
      constructor
      · rintro ⟨id, _, ⟨h₁, rfl⟩, flags, _, ⟨h₂, rfl⟩, questions, _, ⟨h₃, rfl⟩, answers, _,
          ⟨h₄, rfl⟩, authoritativeEntries, _, ⟨h₅, rfl⟩, resourceEntries, ⟨h₆, rfl⟩, rfl⟩
        exact ⟨⟨id, flags, questions, answers, authoritativeEntries, resourceEntries, h₁, h₂, h₃,
          h₄, h₅, h₆, rfl⟩, rfl⟩
      · rintro ⟨⟨id, flags, questions, answers, authoritativeEntries, resourceEntries, h₁, h₂, h₃,
          h₄, h₅, h₆, rfl⟩, rfl⟩
        exact ⟨id, _, ⟨h₁, rfl⟩, flags, _, ⟨h₂, rfl⟩, questions, _, ⟨h₃, rfl⟩, answers, _,
          ⟨h₄, rfl⟩, authoritativeEntries, _, ⟨h₅, rfl⟩, resourceEntries, ⟨h₆, rfl⟩, rfl⟩

/-- A question is a name and two numbers. -/
theorem reads_question (U : Unicode) :
    Reads contents (DnsQuestion.read U : BufferM β DnsQuestion) fun data p question q =>
      QuestionAt U data p question q :=
  ((reads_name U).bind fun name => reads_readU16.bind fun qtype =>
    reads_readU16.map fun _ : UInt16 => (⟨name, .fromNum qtype⟩ : DnsQuestion)).congr
    fun data p question q => by
      constructor
      · rintro ⟨_, m, ⟨labels, hname, rfl⟩, qtype, _, ⟨h₁, rfl⟩, klass, ⟨h₂, rfl⟩, rfl⟩
        exact .mk hname h₁ h₂
      · rintro ⟨hname, h₁, h₂⟩
        exact ⟨_, _, ⟨_, hname, rfl⟩, _, _, ⟨h₁, rfl⟩, _, ⟨h₂, rfl⟩, rfl⟩

/-- A range is read, and then stepped over. -/
theorem reads_readRange (len : ℕ) :
    Reads contents (DnsRecord.readRange len : BufferM β (List UInt8)) fun data p xs q =>
      RangeAt (slack β) data p len xs ∧ q = p + len :=
  (Reads.getPos.bind fun p => (reads_getRange p len).bind fun xs =>
    (reads_step len).map fun _ => xs).congr fun data p xs q => by
      constructor
      · rintro ⟨_, _, ⟨rfl, rfl⟩, xs, _, ⟨hxs, rfl⟩, _, rfl, rfl⟩
        exact ⟨hxs, rfl⟩
      · rintro ⟨hxs, rfl⟩
        exact ⟨_, _, ⟨rfl, rfl⟩, xs, _, ⟨hxs, rfl⟩, (), rfl, rfl⟩

section

variable (U : Unicode) (checks : Bool) (domain : String) (qtypeNum klass : UInt16) (ttl : UInt32)
  (dataLen : UInt16)

/-- The data of records of a type is read as it is laid out. -/
def ReadsData (β : Type) [PacketBuffer β] [ReadableBuffer β] (U : Unicode) (checks : Bool)
    (domain : String) (qtypeNum klass : UInt16) (ttl : UInt32) (dataLen : UInt16)
    (qtype : QueryType) : Prop :=
  Reads contents (DnsRecord.readData U checks domain qtypeNum klass ttl dataLen qtype :
    BufferM β DnsRecord) fun data p rec q =>
      DataAt U checks (slack β) data domain qtypeNum klass ttl dataLen qtype p rec q

/-- The data of a record that is one name. -/
theorem reads_nameData {qtype : QueryType} {mk : String → DnsRecord}
    (h : ∀ data p rec q, DataAt U checks (slack β) data domain qtypeNum klass ttl dataLen qtype
      p rec q ↔ ∃ labels, NameAt data p labels q ∧ rec = mk (U.name labels)) :
    Reads contents (do
      let name ← readQname U ""
      pure (mk name) : BufferM β DnsRecord) fun data p rec q =>
        DataAt U checks (slack β) data domain qtypeNum klass ttl dataLen qtype p rec q :=
  ((reads_name U).map mk).congr fun data p rec q => by
    rw [h]
    constructor
    · rintro ⟨_, ⟨labels, hname, rfl⟩, rfl⟩
      exact ⟨labels, hname, rfl⟩
    · rintro ⟨labels, hname, rfl⟩
      exact ⟨_, ⟨labels, hname, rfl⟩, rfl⟩

/-- The data of an unknown record is skipped. -/
theorem reads_unknownData (num : UInt16) :
    ReadsData β U checks domain qtypeNum klass ttl dataLen (.unknown num) := by
  refine ((reads_step dataLen.toNat).map fun _ => _).congr fun data p rec q => ?_
  constructor
  · rintro ⟨_, rfl, rfl⟩
    exact .unknown
  · intro hdata
    cases hdata with
    | unknown =>
      exact ⟨(), rfl, rfl⟩

/-- The data of an A record is an address. -/
theorem reads_aData : ReadsData β U checks domain qtypeNum klass ttl dataLen .a := by
  refine (reads_readU32.map fun raw => _).congr fun data p rec q => ?_
  constructor
  · rintro ⟨raw, ⟨h, rfl⟩, rfl⟩
    exact .a h
  · intro hdata
    cases hdata with
    | a h =>
      exact ⟨_, ⟨h, rfl⟩, rfl⟩

/-- The data of an AAAA record is an address of four words. -/
theorem reads_aaaaData : ReadsData β U checks domain qtypeNum klass ttl dataLen .aaaa := by
  refine (reads_readU32.bind fun raw₁ => reads_readU32.bind fun raw₂ =>
    reads_readU32.bind fun raw₃ => reads_readU32.map fun raw₄ => _).congr fun data p rec q => ?_
  constructor
  · rintro ⟨_, _, ⟨h₁, rfl⟩, _, _, ⟨h₂, rfl⟩, _, _, ⟨h₃, rfl⟩, _, ⟨h₄, rfl⟩, rfl⟩
    exact .aaaa h₁ h₂ h₃ h₄
  · intro hdata
    cases hdata with
    | aaaa h₁ h₂ h₃ h₄ =>
      exact ⟨_, _, ⟨h₁, rfl⟩, _, _, ⟨h₂, rfl⟩, _, _, ⟨h₃, rfl⟩, _, ⟨h₄, rfl⟩, rfl⟩

/-- The data of an NS, CNAME or PTR record is one name. -/
theorem reads_nsData : ReadsData β U checks domain qtypeNum klass ttl dataLen .ns := by
  refine reads_nameData U checks domain qtypeNum klass ttl dataLen fun data p rec q => ?_
  constructor
  · intro hdata
    cases hdata with
    | ns h =>
      exact ⟨_, h, rfl⟩
  · rintro ⟨labels, h, rfl⟩
    exact .ns h

theorem reads_cnameData : ReadsData β U checks domain qtypeNum klass ttl dataLen .cname := by
  refine reads_nameData U checks domain qtypeNum klass ttl dataLen fun data p rec q => ?_
  constructor
  · intro hdata
    cases hdata with
    | cname h =>
      exact ⟨_, h, rfl⟩
  · rintro ⟨labels, h, rfl⟩
    exact .cname h

theorem reads_ptrData : ReadsData β U checks domain qtypeNum klass ttl dataLen .ptr := by
  refine reads_nameData U checks domain qtypeNum klass ttl dataLen fun data p rec q => ?_
  constructor
  · intro hdata
    cases hdata with
    | ptr h =>
      exact ⟨_, h, rfl⟩
  · rintro ⟨labels, h, rfl⟩
    exact .ptr h

/-- The data of an MX record is a priority and a name. -/
theorem reads_mxData : ReadsData β U checks domain qtypeNum klass ttl dataLen .mx := by
  refine (reads_readU16.bind fun priority => (reads_name U).map fun host => _).congr
    fun data p rec q => ?_
  constructor
  · rintro ⟨_, _, ⟨h₁, rfl⟩, _, ⟨labels, h, rfl⟩, rfl⟩
    exact .mx h₁ h
  · intro hdata
    cases hdata with
    | mx h₁ h =>
      exact ⟨_, _, ⟨h₁, rfl⟩, _, ⟨_, h, rfl⟩, rfl⟩

/-- The data of an SRV record is three numbers and a name. -/
theorem reads_srvData : ReadsData β U checks domain qtypeNum klass ttl dataLen .srv := by
  refine (reads_readU16.bind fun priority => reads_readU16.bind fun weight =>
    reads_readU16.bind fun port => (reads_name U).map fun host => _).congr fun data p rec q => ?_
  constructor
  · rintro ⟨_, _, ⟨h₁, rfl⟩, _, _, ⟨h₂, rfl⟩, _, _, ⟨h₃, rfl⟩, _, ⟨labels, h, rfl⟩, rfl⟩
    exact .srv h₁ h₂ h₃ h
  · intro hdata
    cases hdata with
    | srv h₁ h₂ h₃ h =>
      exact ⟨_, _, ⟨h₁, rfl⟩, _, _, ⟨h₂, rfl⟩, _, _, ⟨h₃, rfl⟩, _, ⟨_, h, rfl⟩, rfl⟩

/-- The data of an SOA record is two names and five numbers. -/
theorem reads_soaData : ReadsData β U checks domain qtypeNum klass ttl dataLen .soa := by
  refine ((reads_name U).bind fun mName => (reads_name U).bind fun rName =>
    reads_readU32.bind fun serial => reads_readU32.bind fun refresh =>
    reads_readU32.bind fun retry => reads_readU32.bind fun expire =>
    reads_readU32.map fun minimum => _).congr fun data p rec q => ?_
  constructor
  · rintro ⟨_, _, ⟨mName, hm, rfl⟩, _, _, ⟨rName, hr, rfl⟩, _, _, ⟨h₁, rfl⟩, _, _, ⟨h₂, rfl⟩,
      _, _, ⟨h₃, rfl⟩, _, _, ⟨h₄, rfl⟩, _, ⟨h₅, rfl⟩, rfl⟩
    exact .soa hm hr h₁ h₂ h₃ h₄ h₅
  · intro hdata
    cases hdata with
    | soa hm hr h₁ h₂ h₃ h₄ h₅ =>
      exact ⟨_, _, ⟨_, hm, rfl⟩, _, _, ⟨_, hr, rfl⟩, _, _, ⟨h₁, rfl⟩, _, _, ⟨h₂, rfl⟩,
        _, _, ⟨h₃, rfl⟩, _, _, ⟨h₄, rfl⟩, _, ⟨h₅, rfl⟩, rfl⟩

/-- The data of a TXT or OPT record is a range of bytes. -/
theorem reads_txtData : ReadsData β U checks domain qtypeNum klass ttl dataLen .txt := by
  refine ((reads_readRange dataLen.toNat).map fun xs => _).congr fun data p rec q => ?_
  constructor
  · rintro ⟨xs, ⟨h, rfl⟩, rfl⟩
    exact .txt h
  · intro hdata
    cases hdata with
    | txt h =>
      exact ⟨_, ⟨h, rfl⟩, rfl⟩

theorem reads_optData : ReadsData β U checks domain qtypeNum klass ttl dataLen .opt := by
  refine ((reads_readRange dataLen.toNat).map fun xs => _).congr fun data p rec q => ?_
  constructor
  · rintro ⟨xs, ⟨h, rfl⟩, rfl⟩
    exact .opt h
  · intro hdata
    cases hdata with
    | opt h =>
      exact ⟨_, ⟨h, rfl⟩, rfl⟩

/-- The data of a TLSA record is three bytes and a range, if there are three bytes. -/
theorem reads_tlsaData : ReadsData β U checks domain qtypeNum klass ttl dataLen .tlsa := by
  refine (reads_read.bind fun certificateUsage => reads_read.bind fun selector =>
    reads_read.bind fun matchingType => (Reads.exec (Exec.subU16 checks dataLen 3)).bind fun len =>
    (reads_readRange len.toNat).map fun xs => _).congr fun data p rec q => ?_
  constructor
  · rintro ⟨_, _, ⟨h₁, rfl⟩, _, _, ⟨h₂, rfl⟩, _, _, ⟨h₃, rfl⟩, len, _, ⟨hlen, rfl⟩, xs,
      ⟨h, rfl⟩, rfl⟩
    exact .tlsa h₁ h₂ h₃ hlen h
  · intro hdata
    cases hdata with
    | tlsa h₁ h₂ h₃ hlen h =>
      exact ⟨_, _, ⟨h₁, rfl⟩, _, _, ⟨h₂, rfl⟩, _, _, ⟨h₃, rfl⟩, _, _, ⟨hlen, rfl⟩, _,
        ⟨h, rfl⟩, rfl⟩

/-- The data of a record is read by its type. -/
theorem reads_readData (qtype : QueryType) :
    ReadsData β U checks domain qtypeNum klass ttl dataLen qtype := by
  cases qtype with
  | unknown num => exact reads_unknownData U checks domain qtypeNum klass ttl dataLen num
  | a => exact reads_aData U checks domain qtypeNum klass ttl dataLen
  | ns => exact reads_nsData U checks domain qtypeNum klass ttl dataLen
  | cname => exact reads_cnameData U checks domain qtypeNum klass ttl dataLen
  | soa => exact reads_soaData U checks domain qtypeNum klass ttl dataLen
  | ptr => exact reads_ptrData U checks domain qtypeNum klass ttl dataLen
  | mx => exact reads_mxData U checks domain qtypeNum klass ttl dataLen
  | txt => exact reads_txtData U checks domain qtypeNum klass ttl dataLen
  | aaaa => exact reads_aaaaData U checks domain qtypeNum klass ttl dataLen
  | srv => exact reads_srvData U checks domain qtypeNum klass ttl dataLen
  | opt => exact reads_optData U checks domain qtypeNum klass ttl dataLen
  | tlsa => exact reads_tlsaData U checks domain qtypeNum klass ttl dataLen

/-- **A record is read.** -/
theorem reads_record : Reads contents (DnsRecord.read U checks : BufferM β DnsRecord)
    fun data p rec q => RecordAt U checks (slack β) data p rec q :=
  ((reads_name U).bind fun domain => reads_readU16.bind fun qtypeNum =>
    reads_readU16.bind fun klass => reads_readU32.bind fun ttl => reads_readU16.bind fun dataLen =>
    reads_readData U checks domain qtypeNum klass ttl dataLen (.fromNum qtypeNum)).congr
    fun data p rec q => by
      constructor
      · rintro ⟨_, _, ⟨labels, hname, rfl⟩, _, _, ⟨h₁, rfl⟩, _, _, ⟨h₂, rfl⟩, _, _, ⟨h₃, rfl⟩,
          _, _, ⟨h₄, rfl⟩, h⟩
        exact .mk hname h₁ h₂ h₃ h₄ h
      · rintro ⟨hname, h₁, h₂, h₃, h₄, h⟩
        exact ⟨_, _, ⟨_, hname, rfl⟩, _, _, ⟨h₁, rfl⟩, _, _, ⟨h₂, rfl⟩, _, _, ⟨h₃, rfl⟩,
          _, _, ⟨h₄, rfl⟩, h⟩

/-- **`from_buffer` reads messages.** -/
theorem reads_fromBuffer : Reads contents (DnsPacket.fromBuffer U checks : BufferM β DnsPacket)
    fun data p packet q => PacketAt U checks (slack β) data p packet q :=
  (reads_header.bind fun header => ((reads_question U).times header.questions.toNat).bind fun qs =>
    ((reads_record U checks).times header.answers.toNat).bind fun answers =>
    ((reads_record U checks).times header.authoritativeEntries.toNat).bind fun authorities =>
    ((reads_record U checks).times header.resourceEntries.toNat).map fun resources =>
      (⟨header, qs, answers, authorities, resources⟩ : DnsPacket)).congr
    fun data p packet q => by
      constructor
      · rintro ⟨header, _, ⟨hheader, rfl⟩, qs, _, ⟨hn₁, h₁⟩, as, _, ⟨hn₂, h₂⟩, ns, _, ⟨hn₃, h₃⟩,
          rs, ⟨hn₄, h₄⟩, rfl⟩
        exact .mk hheader hn₁ hn₂ hn₃ hn₄ h₁ h₂ h₃ h₄
      · rintro ⟨hheader, hn₁, hn₂, hn₃, hn₄, h₁, h₂, h₃, h₄⟩
        exact ⟨_, _, ⟨hheader, rfl⟩, _, _, ⟨hn₁, h₁⟩, _, _, ⟨hn₂, h₂⟩, _, _, ⟨hn₃, h₃⟩,
          _, ⟨hn₄, h₄⟩, rfl⟩

end

end ReadableBuffer
