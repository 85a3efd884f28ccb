import Mathlib.Algebra.Order.BigOperators.Group.List
import Mathlib.Algebra.Order.BigOperators.GroupWithZero.List
import Mathlib.Tactic.Abel
import Mathlib.Tactic.Ring
import PollyInstrew.Server.RestoreGep

/-!
# The addresses of restored accesses

What the loop over the strides makes of an array's byte strides, and when the new
`getelementptr` has the address of the old one.
-/

namespace PollyInstrew.Restore

open PollyInstrew.LinearForm

/-! ## Dimensions from strides -/

/-- The byte strides of an array, innermost first, if `size` is that of an element. -/
def byteStrides (size : ℕ) : List ℕ → List ℕ
  | [] => []
  | d :: ds => size * d :: byteStrides (size * d) ds

/-- Each dimension multiplied with the result two places before; `x` and `y` are the two
results before the list. -/
def everySecond (x y : ℕ) : List ℕ → List ℕ
  | [] => []
  | d :: ds => x * d :: everySecond y (x * d) ds

theorem ofNat_div {n m : ℕ} (hn : n < 2 ^ 32) (hm : m < 2 ^ 32) :
    BitVec.ofNat 32 n / BitVec.ofNat 32 m = BitVec.ofNat 32 (n / m) := by
  apply BitVec.eq_of_toNat_eq
  have hle : n / m ≤ n := Nat.div_le_self n m
  rw [BitVec.toNat_udiv, BitVec.toNat_ofNat, BitVec.toNat_ofNat, BitVec.toNat_ofNat,
    Nat.mod_eq_of_lt hn, Nat.mod_eq_of_lt hm, Nat.mod_eq_of_lt (by omega)]

theorem ofNat_ne_zero {n : ℕ} (hpos : 0 < n) (hn : n < 2 ^ 32) : BitVec.ofNat 32 n ≠ 0 := by
  intro h
  have hnat := congrArg BitVec.toNat h
  rw [BitVec.toNat_ofNat, Nat.mod_eq_of_lt hn] at hnat
  simp at hnat
  omega

theorem le_mul_prod {x d : ℕ} {ds : List ℕ} (hds : ∀ d ∈ ds, 0 < d) (hle : x ≤ d) :
    x ≤ d * ds.prod :=
  hle.trans (Nat.le_mul_of_pos_right d (List.prod_pos hds))

/-- The product of two neighbouring results is the product of all dimensions so far, so
every division is exact and cancels the result before. -/
theorem divideBy_byteStrides {b : ℕ} (hb : 0 < b) :
    ∀ (ds : List ℕ) (x y : ℕ), 0 < x → 0 < y → (∀ d ∈ ds, 0 < d) →
      b * x * y * ds.prod < 2 ^ 32 →
      divideBy (BitVec.ofNat 32 b) (BitVec.ofNat 32 y)
        ((byteStrides (b * x * y) ds).map (BitVec.ofNat 32)) =
          .ok ((everySecond x y ds).map (BitVec.ofNat 32)) := by
  intro ds
  induction ds with
  | nil =>
      intro x y _ _ _ _
      rfl
  | cons d ds ih =>
      intro x y hx hy hds hfit
      have hd : 0 < d := hds d List.mem_cons_self
      have hrest : ∀ e ∈ ds, 0 < e := fun e he => hds e (List.mem_cons_of_mem d he)
      rw [List.prod_cons, ← Nat.mul_assoc] at hfit
      have hstride : b * x * y * d < 2 ^ 32 :=
        Nat.lt_of_le_of_lt (le_mul_prod hrest (Nat.le_refl _)) hfit
      have hyb : y * b ≤ b * x * y * d := by
        calc y * b = b * 1 * y * 1 := by ring
          _ ≤ b * x * y * d := by gcongr <;> assumption
      have hprev : BitVec.ofNat 32 y * BitVec.ofNat 32 b = BitVec.ofNat 32 (y * b) :=
        (BitVec.ofNat_mul _ _).symm
      have hquot : b * x * y * d / (y * b) = x * d := by
        rw [show b * x * y * d = x * d * (y * b) by ring]
        exact Nat.mul_div_cancel _ (Nat.mul_pos hy hb)
      have hnext : b * x * y * d = b * y * (x * d) := by ring
      rw [byteStrides, List.map_cons, divideBy, hprev,
        if_neg (ofNat_ne_zero (Nat.mul_pos hy hb) (by omega)),
        ofNat_div hstride (by omega), hquot, hnext,
        ih y (x * d) hy (Nat.mul_pos hx hd) hrest (by rwa [← hnext])]
      rfl

theorem dimensions_eq_divideBy {byteSize : BitVec 32} (h : byteSize ≠ 0)
    (strides : List (BitVec 32)) :
    dimensions byteSize strides = divideBy byteSize 1 strides := by
  cases strides with
  | nil => rfl
  | cons d ds => rw [dimensions, divideBy, one_mul, if_neg h]

theorem everySecond_eq_self_iff (x y : ℕ) (ds : List ℕ) (hds : ∀ d ∈ ds, 0 < d) :
    everySecond x y ds = ds ↔ ∀ k, k < ds.length → (x :: y :: ds)[k]? = some 1 := by
  induction ds generalizing x y with
  | nil => simp [everySecond]
  | cons d ds ih =>
      have hd : 0 < d := hds d List.mem_cons_self
      rw [everySecond, List.cons.injEq]
      constructor
      · rintro ⟨hhead, htail⟩ k hk
        have hx : x = 1 := Nat.eq_of_mul_eq_mul_right hd (hhead.trans (Nat.one_mul d).symm)
        subst hx
        rw [Nat.one_mul] at htail
        cases k with
        | zero => rfl
        | succ k =>
            have hall := (ih y d fun e he => hds e (List.mem_cons_of_mem d he)).mp htail
            exact hall k (Nat.lt_of_succ_lt_succ hk)
      · intro h
        have hx : x = 1 := Option.some.inj (h 0 (Nat.succ_pos _))
        subst hx
        rw [Nat.one_mul]
        refine ⟨rfl, (ih y d fun e he => hds e (List.mem_cons_of_mem d he)).mpr ?_⟩
        intro k hk
        exact h (k + 1) (Nat.succ_lt_succ hk)

theorem everySecond_lt {bound : ℕ} (ds : List ℕ) (x y : ℕ) (hy : 0 < y) (hx : 0 < x)
    (hds : ∀ d ∈ ds, 0 < d) (hfit : x * y * ds.prod < bound) :
    ∀ e ∈ everySecond x y ds, e < bound := by
  induction ds generalizing x y with
  | nil => simp [everySecond]
  | cons d ds ih =>
      have hd : 0 < d := hds d List.mem_cons_self
      have hrest : ∀ e ∈ ds, 0 < e := fun e he => hds e (List.mem_cons_of_mem d he)
      rw [List.prod_cons, ← Nat.mul_assoc] at hfit
      rw [show x * y * d = y * (x * d) by ring] at hfit
      intro e he
      obtain rfl | he := List.mem_cons.mp he
      · refine Nat.lt_of_le_of_lt (le_mul_prod hrest ?_) hfit
        exact Nat.le_mul_of_pos_left _ hy
      · exact ih y (x * d) (Nat.mul_pos hx hd) hy hrest hfit e he

theorem map_ofNat_inj {l l' : List ℕ} (hl : ∀ n ∈ l, n < 2 ^ 32) (hl' : ∀ n ∈ l', n < 2 ^ 32) :
    l.map (BitVec.ofNat 32) = l'.map (BitVec.ofNat 32) ↔ l = l' := by
  have hback : ∀ m : List ℕ, (∀ n ∈ m, n < 2 ^ 32) →
      (m.map (BitVec.ofNat 32)).map BitVec.toNat = m := by
    intro m hm
    rw [List.map_map]
    refine (List.map_congr_left fun n hn => ?_).trans (List.map_id m)
    rw [Function.comp_apply, BitVec.toNat_ofNat, Nat.mod_eq_of_lt (hm n hn), id]
  constructor
  · intro h
    rw [← hback l hl, h, hback l' hl']
  · rintro rfl
    rfl

/-- The loop over the strides of an array gives back its dimensions exactly if all but
the last two of them are 1. -/
theorem dimensions_recovers_iff {b : ℕ} {ds : List ℕ} (hb : 1 ≤ b) (hds : ∀ d ∈ ds, 1 ≤ d)
    (hfit : b * ds.prod < 2 ^ 32) :
    dimensions (BitVec.ofNat 32 b) ((byteStrides b ds).map (BitVec.ofNat 32)) =
        .ok (ds.map (BitVec.ofNat 32)) ↔
      ∀ k, k + 2 < ds.length → ds[k]? = some 1 := by
  have hb32 : b < 2 ^ 32 :=
    Nat.lt_of_le_of_lt (le_mul_prod hds (Nat.le_refl b)) hfit
  have hprod : 1 * 1 * ds.prod < 2 ^ 32 := by
    refine Nat.lt_of_le_of_lt ?_ hfit
    gcongr
  have hrun := divideBy_byteStrides hb ds 1 1 Nat.one_pos Nat.one_pos hds (by simpa using hfit)
  rw [Nat.mul_one, Nat.mul_one] at hrun
  have hmem : ∀ d ∈ ds, d < 2 ^ 32 := by
    intro d hd
    refine Nat.lt_of_le_of_lt ?_ hprod
    rw [Nat.one_mul]
    exact List.single_le_prod hds d hd
  rw [dimensions_eq_divideBy (ofNat_ne_zero hb hb32),
    show (1 : BitVec 32) = BitVec.ofNat 32 1 from rfl, hrun, Except.ok.injEq,
    map_ofNat_inj (everySecond_lt ds 1 1 Nat.one_pos Nat.one_pos hds hprod) hmem,
    everySecond_eq_self_iff 1 1 ds hds]
  constructor
  · intro h k hk
    exact h (k + 2) hk
  · intro h k hk
    match k with
    | 0 => rfl
    | 1 => rfl
    | k + 2 => exact h k hk

/-- Rows of 5 elements of 4 bytes, 3 of them in a plane. -/
theorem dimensions_recovers_plane :
    dimensions 4 ((byteStrides 4 [5, 3]).map (BitVec.ofNat 32)) = .ok [5, 3] :=
  (@dimensions_recovers_iff 4 [5, 3] (by decide) (by decide) (by decide)).mpr (by simp)

/-- With two such planes the third stride comes out as 10. -/
theorem dimensions_two_planes :
    (byteStrides 4 [5, 3, 2]).map (BitVec.ofNat 32) = [20, 60, 120] ∧
      dimensions 4 [20, 60, 120] = .ok [5, 3, 10] :=
  ⟨rfl, rfl⟩

/-! ## The linear form of an address -/

/-- Built with `add` and with `mul` by a constant. -/
def Value.linear : Value → Bool
  | .const _ => true
  | .leaf _ => true
  | .intToPtr a => a.linear
  | .binary .mul a (.const _) => a.linear
  | .binary .add a b => a.linear && b.linear
  | .binary _ _ _ => false

def Value.constPart : Value → BitVec 64
  | .const c => c
  | .leaf _ => 0
  | .intToPtr a => a.constPart
  | .binary .mul a (.const c) => c * a.constPart
  | .binary _ a b => a.constPart + b.constPart

def Value.terms : Value → List (BitVec 64 × Leaf)
  | .const _ => []
  | .leaf l => [(1, l)]
  | .intToPtr a => a.terms
  | .binary .mul a (.const c) => scale c a.terms
  | .binary _ a b => a.terms ++ b.terms

theorem eval_eq_form (env : Env) (v : Value) (h : v.linear) :
    v.eval env = v.constPart + value env.leaf v.terms := by
  fun_induction Value.linear v with
  | case1 c => simp [Value.eval, Value.constPart, Value.terms]
  | case2 l => simp [Value.eval, Value.constPart, Value.terms]
  | case3 a ih => exact ih h
  | case4 a c ih =>
      rw [Value.eval, ih h, Value.constPart, Value.terms, value_scale, ← mul_add, mul_comm]
      rfl
  | case5 a b iha ihb =>
      rw [Bool.and_eq_true] at h
      change a.eval env + b.eval env =
        a.constPart + b.constPart + value env.leaf (a.terms ++ b.terms)
      rw [iha h.1, ihb h.2, value_append]
      abel
  | case6 op a b hmul hadd => cases h

/-- The sum of the forms of all indices, each with its stride. -/
def offsetConst (indices : List Value) (strides : List ℕ) : BitVec 64 :=
  (List.zipWith (fun v stride => BitVec.ofNat 64 stride * v.constPart) indices strides).sum

def offsetTerms (indices : List Value) (strides : List ℕ) : List (BitVec 64 × Leaf) :=
  (List.zipWith (fun v stride => scale (BitVec.ofNat 64 stride) v.terms) indices strides).flatten

theorem offset_eq_form (env : Env) (indices : List Value) (h : ∀ v ∈ indices, v.linear) :
    ∀ strides : List ℕ, offset env indices strides =
      offsetConst indices strides + value env.leaf (offsetTerms indices strides) := by
  induction indices with
  | nil =>
      intro strides
      simp [offset, offsetConst, offsetTerms]
  | cons v indices ih =>
      intro strides
      cases strides with
      | nil => simp [offset, offsetConst, offsetTerms]
      | cons stride strides =>
          have hv := eval_eq_form env v (h v List.mem_cons_self)
          have hrest := ih (fun w hw => h w (List.mem_cons_of_mem v hw)) strides
          rw [offset, offsetConst, offsetTerms] at hrest
          rw [offset, offsetConst, offsetTerms, List.zipWith_cons_cons, List.zipWith_cons_cons,
            List.zipWith_cons_cons, List.sum_cons, List.sum_cons, List.flatten_cons,
            value_append, value_scale, hv, hrest, mul_add]
          abel

def Gep.constPart (gep : Gep) : BitVec 64 :=
  gep.pointer.constPart + BitVec.ofNat 64 (Ty.int gep.bits).allocSize * gep.index.constPart

def Gep.terms (gep : Gep) : List (BitVec 64 × Leaf) :=
  gep.pointer.terms ++ scale (BitVec.ofNat 64 (Ty.int gep.bits).allocSize) gep.index.terms

def NewGep.constPart (new : NewGep) : BitVec 64 :=
  new.base.constPart + offsetConst new.indices new.ty.strides

def NewGep.terms (new : NewGep) : List (BitVec 64 × Leaf) :=
  new.base.terms ++ offsetTerms new.indices new.ty.strides

theorem Gep.address_eq_form (gep : Gep) (env : Env) (hpointer : gep.pointer.linear)
    (hindex : gep.index.linear) :
    gep.address env = gep.constPart + value env.leaf gep.terms := by
  rw [Gep.address, eval_eq_form env _ hpointer, eval_eq_form env _ hindex, Gep.constPart,
    Gep.terms, value_append, value_scale, mul_add]
  abel

theorem NewGep.address_eq_form (new : NewGep) (env : Env) (hbase : new.base.linear)
    (hindices : ∀ v ∈ new.indices, v.linear) :
    new.address env = new.constPart + value env.leaf new.terms := by
  rw [NewGep.address, eval_eq_form env _ hbase, offset_eq_form env _ hindices,
    NewGep.constPart, NewGep.terms, value_append]
  abel

/-! ## When the addresses agree -/

/-- Two forms have the same constant and the same coefficients.  A narrow value that is
extended in both ways counts with both coefficients. -/
structure SameForm (c c' : BitVec 64) (terms terms' : List (BitVec 64 × Leaf)) : Prop where
  const : c = c'
  wide : ∀ kind name,
    coeff (.wide kind name) terms = coeff (.wide kind name) terms'
  narrow : ∀ (source : Narrow) (x : BitVec source.width),
    coeff (.ext false source) terms * x.setWidth 64 +
        coeff (.ext true source) terms * x.signExtend 64 =
      coeff (.ext false source) terms' * x.setWidth 64 +
        coeff (.ext true source) terms' * x.signExtend 64

/-- The variable a leaf depends on. -/
def Leaf.key : Leaf → (Kind × ℕ) ⊕ Narrow
  | .wide kind name => .inl (kind, name)
  | .ext _ source => .inr source

def Env.only : (Kind × ℕ) ⊕ Narrow → Env → Env
  | .inl (kind, name), env =>
      { wide := fun k n => if k = kind ∧ n = name then env.wide k n else 0
        narrow := fun _ => 0 }
  | .inr source, env =>
      { wide := fun _ _ => 0
        narrow := fun s => if s = source then env.narrow s else 0 }

theorem leaf_ext_of_zero {env : Env} {source : Narrow} (signed : Bool)
    (h : env.narrow source = 0) : env.leaf (.ext signed source) = 0 := by
  cases signed with
  | false => simp [Env.leaf, h]
  | true => simp [Env.leaf, h, BitVec.signExtend]

theorem env_separated : Separated Leaf.key Env.leaf Env.only := by
  constructor
  · rintro v env l rfl
    cases l with
    | wide kind name => simp [Leaf.key, Env.only, Env.leaf]
    | ext signed source => cases signed <;> simp [Leaf.key, Env.only, Env.leaf]
  · intro v env l hne
    cases l with
    | wide kind name =>
        rcases v with ⟨k, n⟩ | s
        · have hkey : ¬(kind = k ∧ name = n) := by
            rintro ⟨rfl, rfl⟩
            exact hne rfl
          exact if_neg hkey
        · rfl
    | ext signed source =>
        rcases v with ⟨k, n⟩ | s
        · exact leaf_ext_of_zero signed rfl
        · have hkey : ¬source = s := by
            rintro rfl
            exact hne rfl
          exact leaf_ext_of_zero signed (if_neg hkey)

theorem value_group_wide (kind : Kind) (name : ℕ) (x : Leaf → BitVec 64)
    (terms : List (BitVec 64 × Leaf)) :
    value x (group Leaf.key (.inl (kind, name)) terms) =
      coeff (.wide kind name) terms * x (.wide kind name) := by
  have hkey : ∀ l, Leaf.key l = .inl (kind, name) ↔ l ∈ ({.wide kind name} : Finset Leaf) := by
    intro l
    cases l <;> simp [Leaf.key]
  rw [value_group_eq_sum hkey, Finset.sum_singleton]

theorem value_group_narrow (source : Narrow) (x : Leaf → BitVec 64)
    (terms : List (BitVec 64 × Leaf)) :
    value x (group Leaf.key (.inr source) terms) =
      coeff (.ext false source) terms * x (.ext false source) +
        coeff (.ext true source) terms * x (.ext true source) := by
  have hkey : ∀ l, Leaf.key l = .inr source ↔
      l ∈ ({.ext false source, .ext true source} : Finset Leaf) := by
    intro l
    cases l with
    | wide kind name => simp [Leaf.key]
    | ext signed s => cases signed <;> simp [Leaf.key]
  rw [value_group_eq_sum hkey, Finset.sum_pair (by simp)]

theorem forall_form_eq_iff (c c' : BitVec 64) (terms terms' : List (BitVec 64 × Leaf)) :
    (∀ env : Env, c + value env.leaf terms = c' + value env.leaf terms') ↔
      SameForm c c' terms terms' := by
  have hzero : ∀ l, Env.leaf ⟨fun _ _ => 0, fun _ => 0⟩ l = 0 := by
    intro l
    cases l with
    | wide kind name => rfl
    | ext signed source => exact leaf_ext_of_zero signed rfl
  rw [forall_value_eq_iff env_separated _ hzero]
  constructor
  · rintro ⟨hconst, hgroups⟩
    refine ⟨hconst, fun kind name => ?_, fun source x => ?_⟩
    · have hone := hgroups (.inl (kind, name)) ⟨fun _ _ => 1, fun _ => 0⟩
      rwa [value_group_wide, value_group_wide, Env.leaf, mul_one, mul_one] at hone
    · have hx := hgroups (.inr source)
        ⟨fun _ _ => 0, fun s => if h : s = source then h ▸ x else 0⟩
      simpa [value_group_narrow, Env.leaf] using hx
  · intro h
    refine ⟨h.const, fun v env => ?_⟩
    rcases v with ⟨kind, name⟩ | source
    · rw [value_group_wide, value_group_wide, h.wide]
    · rw [value_group_narrow, value_group_narrow]
      exact h.narrow source (env.narrow source)

/-! ## What the analysis returns -/

theorem isAtom_linear {v : Value} (h : v.isAtom) : v.linear := by
  cases v with
  | const c => rfl
  | leaf l => rfl
  | binary op a b => cases h
  | intToPtr a => cases h

theorem bind_eq_ok {α β : Type} {x : Except Failure α} {f : α → Except Failure β} {r : β}
    (h : x >>= f = .ok r) : ∃ a, x = .ok a ∧ f a = .ok r := by
  cases x with
  | error why => cases h
  | ok a => exact ⟨a, rfl, h⟩

theorem lowestIndex_atomic {rg rg' : RestoreGep} {v : Value} (hrg : Atomic rg)
    (h : lowestIndex rg v = .ok rg') : Atomic rg' := by
  revert h
  fun_cases lowestIndex rg v <;> intro h <;> cases h
  case case1 => exact hrg.pushIndex rfl
  case case3 => exact hrg.pushIndex rfl
  case case4 => exact hrg.pushIndex rfl
  case case5 => exact hrg.pushIndex rfl
  case case6 => exact hrg

/-- The dimensions change, the base and the indices do not. -/
theorem analyzeDimensions_atomic {rg rg' : RestoreGep} (hrg : Atomic rg)
    (h : analyzeDimensions rg = .ok rg') : Atomic rg' := by
  rw [analyzeDimensions] at h
  split at h
  · cases h
    exact hrg
  · obtain ⟨-, -, h⟩ := bind_eq_ok h
    obtain ⟨-, -, h⟩ := bind_eq_ok h
    obtain ⟨dims, -, h⟩ := bind_eq_ok h
    cases h
    exact ⟨hrg.base, hrg.index⟩

theorem analyzeAddrIndex_atomic {gep : Gep} {rg : RestoreGep}
    (h : analyzeAddrIndex gep = .ok rg) : Atomic rg := by
  have hinit : Atomic ⟨gep.bits, none, [], []⟩ := ⟨nofun, nofun⟩
  obtain ⟨rg₁, hlowest, h⟩ := bind_eq_ok h
  obtain ⟨rg₂, hwalk, h⟩ := bind_eq_ok h
  obtain ⟨-, -, h⟩ := bind_eq_ok h
  obtain ⟨-, -, h⟩ := bind_eq_ok h
  obtain ⟨-, -, h⟩ := bind_eq_ok h
  have hrg₁ := lowestIndex_atomic hinit hlowest
  exact analyzeDimensions_atomic (walk_atomic _ _ _ _ hrg₁ hwalk) h

theorem restore_atomic {gep : Gep} {new : NewGep} (h : restore gep = .ok new) :
    new.base.isAtom ∧ ∀ v ∈ new.indices, v.isAtom := by
  obtain ⟨rg, hanalyze, h⟩ := bind_eq_ok h
  have hrg := analyzeAddrIndex_atomic hanalyze
  cases hbase : rg.baseAddr with
  | none =>
      rw [hbase] at h
      cases h
  | some base =>
      rw [hbase] at h
      cases h
      exact ⟨hrg.base base hbase, fun v hv => hrg.index v (List.mem_reverse.mp hv)⟩

/-- Rows of 5 elements of 4 bytes. -/
def restoredMatrix : NewGep := ⟨.array 5 (.int 32), .leaf (.wide .arg 0), [phiExt 0, phiExt 1]⟩

/-- `a[i][j][k][l]` for elements of 32 bits in rows of 5, planes of 3 rows and blocks of 2
planes. -/
def blockAccess : Gep where
  first := false
  bits := 32
  pointer :=
    .binary .add
      (.binary .add
        (.binary .add (.binary .mul (phiExt 0) (.const 120)) (.leaf (.wide .arg 0)))
        (.binary .mul (phiExt 1) (.const 60)))
      (.binary .mul (phiExt 2) (.const 20))
  index := phiExt 3

/-- The first index is 1, all other values are 0. -/
def firstIndex : Env where
  wide _ _ := 0
  narrow source := BitVec.ofNat source.width (if source.name = 0 then 1 else 0)

end PollyInstrew.Restore
