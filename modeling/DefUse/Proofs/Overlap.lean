import DefUse.Location

namespace DefUse.Location

/-- One of the bytes of a location. -/
def Covers (l : Location) (space : Space) (address : Nat) : Prop :=
  l.space = space ∧ l.offset.toNat ≤ address ∧ address < l.offset.toNat + l.size

theorem space_eq_of_overlaps {a b : Location} (h : a.overlaps b = true) : a.space = b.space := by
  simp only [overlaps, Bool.and_eq_true, decide_eq_true_eq] at h
  exact h.1.1

/-- Ranges that share a byte before the last address are told to overlap. -/
theorem overlaps_of_covers {a b : Location} {space : Space} {x : Nat}
    (hx : x < UInt64.size - 1) (ha : a.Covers space x) (hb : b.Covers space x) :
    a.overlaps b = true := by
  obtain ⟨hsa, hla, hua⟩ := ha
  obtain ⟨hsb, hlb, hub⟩ := hb
  have hab : a.offset.toNat < b.limit := by
    rw [limit, Nat.lt_min]
    omega
  have hba : b.offset.toNat < a.limit := by
    rw [limit, Nat.lt_min]
    omega
  simp [overlaps, hsa, hsb, hab, hba]

/-- The first byte of the one that starts later is shared. -/
theorem covers_of_overlaps {a b : Location} (ha : 0 < a.size) (hb : 0 < b.size)
    (h : a.overlaps b = true) :
    ∃ x, x < UInt64.size - 1 ∧ a.Covers a.space x ∧ b.Covers a.space x := by
  have hspace := space_eq_of_overlaps h
  simp only [overlaps, limit, Bool.and_eq_true, decide_eq_true_eq, Nat.lt_min] at h
  obtain ⟨⟨_, hab, hlast⟩, hba, hlast'⟩ := h
  refine ⟨max a.offset.toNat b.offset.toNat, ?_, ⟨rfl, ?_, ?_⟩, hspace.symm, ?_, ?_⟩
  all_goals omega

theorem overlaps_iff_covers {a b : Location} (ha : 0 < a.size) (hb : 0 < b.size) :
    a.overlaps b = true ↔
      ∃ space x, x < UInt64.size - 1 ∧ a.Covers space x ∧ b.Covers space x := by
  constructor
  · intro h
    obtain ⟨x, hx, hax, hbx⟩ := covers_of_overlaps ha hb h
    exact ⟨a.space, x, hx, hax, hbx⟩
  · rintro ⟨space, x, hx, hax, hbx⟩
    exact overlaps_of_covers hx hax hbx

theorem overlaps_self_iff {a : Location} (ha : 0 < a.size) :
    a.overlaps a = true ↔ a.offset.toNat < UInt64.size - 1 := by
  rw [overlaps_iff_covers ha ha]
  constructor
  · rintro ⟨_, x, hx, ⟨_, hle, _⟩, _⟩
    omega
  · intro h
    have hfirst : a.Covers a.space a.offset.toNat := ⟨rfl, by omega, by omega⟩
    exact ⟨a.space, a.offset.toNat, h, hfirst, hfirst⟩

/-- Two locations overlap exactly when they share a byte before the last address. Where one of them
ends before that address, this is to share a byte at all. The relation is symmetric, and a location
overlaps itself unless it starts at the last address. -/
theorem overlaps_iff_share_byte (a b : Location) (ha : 0 < a.size) (hb : 0 < b.size) :
    (a.overlaps b = true ↔
      ∃ space x, x < UInt64.size - 1 ∧ a.Covers space x ∧ b.Covers space x) ∧
    (a.offset.toNat + a.size < UInt64.size ∨ b.offset.toNat + b.size < UInt64.size →
      (a.overlaps b = true ↔
        a.space = b.space ∧ ∃ x, a.offset.toNat ≤ x ∧ x < a.offset.toNat + a.size ∧
          b.offset.toNat ≤ x ∧ x < b.offset.toNat + b.size)) ∧
    a.overlaps b = b.overlaps a ∧
    (a.overlaps a = true ↔ a.offset.toNat < UInt64.size - 1) := by
  refine ⟨overlaps_iff_covers ha hb, ?_, overlaps_comm a b, overlaps_self_iff ha⟩
  intro hend
  rw [overlaps_iff_covers ha hb]
  constructor
  · rintro ⟨space, x, _, ⟨hsa, hla, hua⟩, hsb, hlb, hub⟩
    exact ⟨hsa.trans hsb.symm, x, hla, hua, hlb, hub⟩
  · rintro ⟨hspace, x, hla, hua, hlb, hub⟩
    have hx : x < UInt64.size - 1 := by omega
    exact ⟨a.space, x, hx, ⟨rfl, hla, hua⟩, hspace.symm, hlb, hub⟩

/-- A range of two bytes that ends before the last address, and one of two that reaches it. -/
theorem nextToLast_share_byte :
    0 < (⟨.ram, 0xfffffffffffffffd, 2⟩ : Location).size ∧
      0xfffffffffffffffd + 2 < UInt64.size ∧
      (⟨.ram, 0xfffffffffffffffd, 2⟩ : Location).overlaps ⟨.ram, 0xfffffffffffffffe, 2⟩ = true := by
  have hshare := (overlaps_iff_share_byte ⟨.ram, 0xfffffffffffffffd, 2⟩ ⟨.ram, 0xfffffffffffffffe, 2⟩
    (by decide) (by decide)).2.1 (Or.inl (by decide))
  exact ⟨by decide, by decide, hshare.mpr ⟨rfl, 0xfffffffffffffffe, by decide⟩⟩

/-- The last byte of a space is shared by these two, and neither is told to overlap the other, nor
the first to overlap itself. -/
theorem last_byte_unseen :
    ∃ a b : Location, 0 < a.size ∧ a.size ≤ 0x10000 ∧ 0 < b.size ∧ b.size ≤ 0x10000 ∧
      a.offset.toNat + a.size ≤ UInt64.size ∧ b.offset.toNat + b.size ≤ UInt64.size ∧
      a.space = b.space ∧
      (∃ x, a.offset.toNat ≤ x ∧ x < a.offset.toNat + a.size ∧
        b.offset.toNat ≤ x ∧ x < b.offset.toNat + b.size) ∧
      a.overlaps b = false ∧ a.overlaps a = false := by
  refine ⟨⟨.register, 0xffffffffffffffff, 1⟩, ⟨.register, 0xfffffffffffffff8, 8⟩, ?_⟩
  refine ⟨by decide, by decide, by decide, by decide, by decide, by decide, rfl, ?_, by decide,
    by decide⟩
  exact ⟨0xffffffffffffffff, by decide⟩

end DefUse.Location
