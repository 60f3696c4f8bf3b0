import Pathfinder.Pratt.Certificate
import Pathfinder.Crypto.Ecdsa

/-!
# The two moduli are prime

The Stark field's modulus `p`, which `MontFelt` computes modulo, and the curve order `n`, which
`CurveOrderMontFelt` computes modulo, are prime. Each is the last entry of a Pratt certificate,
checked by the kernel; the entries before it certify the primes that `p - 1` and `n - 1` are made
of, down to `2`.
-/

namespace Pathfinder
namespace Crypto

def pFactorCertificate : List Pratt.Entry := [
    ⟨2, 1, []⟩,
    ⟨5, 2, [(2, 2)]⟩,
    ⟨3, 2, [(2, 1)]⟩,
    ⟨7, 3, [(2, 1), (3, 1)]⟩,
    ⟨17, 3, [(2, 4)]⟩,
    ⟨43, 3, [(2, 1), (3, 1), (7, 1)]⟩,
    ⟨211, 2, [(2, 1), (3, 1), (5, 1), (7, 1)]⟩,
    ⟨1233929, 6, [(2, 3), (17, 1), (43, 1), (211, 1)]⟩,
    ⟨2467859, 2, [(2, 1), (1233929, 1)]⟩,
    ⟨4935719, 17, [(2, 1), (2467859, 1)]⟩,
    ⟨98714381, 2, [(2, 2), (5, 1), (4935719, 1)]⟩,
    ⟨13, 2, [(2, 2), (3, 1)]⟩,
    ⟨11, 2, [(2, 1), (5, 1)]⟩,
    ⟨23, 5, [(2, 1), (11, 1)]⟩,
    ⟨829, 2, [(2, 2), (3, 2), (23, 1)]⟩,
    ⟨8291, 2, [(2, 1), (5, 1), (829, 1)]⟩,
    ⟨9269339, 6, [(2, 1), (13, 1), (43, 1), (8291, 1)]⟩,
    ⟨166848103, 6, [(2, 1), (3, 2), (9269339, 1)]⟩]

def curveOrderFactorCertificate : List Pratt.Entry := [
    ⟨2, 1, []⟩,
    ⟨3, 2, [(2, 1)]⟩,
    ⟨5, 2, [(2, 2)]⟩,
    ⟨11, 2, [(2, 1), (5, 1)]⟩,
    ⟨17, 3, [(2, 4)]⟩,
    ⟨49369, 13, [(2, 3), (3, 1), (11, 2), (17, 1)]⟩,
    ⟨1481071, 3, [(2, 1), (3, 1), (5, 1), (49369, 1)]⟩,
    ⟨7, 3, [(2, 1), (3, 1)]⟩,
    ⟨23, 5, [(2, 1), (11, 1)]⟩,
    ⟨43, 3, [(2, 1), (3, 1), (7, 1)]⟩,
    ⟨231169, 17, [(2, 8), (3, 1), (7, 1), (43, 1)]⟩,
    ⟨74436419, 7, [(2, 1), (7, 1), (23, 1), (231169, 1)]⟩,
    ⟨29, 2, [(2, 2), (7, 1)]⟩,
    ⟨523, 2, [(2, 1), (3, 2), (29, 1)]⟩,
    ⟨131797, 5, [(2, 2), (3, 2), (7, 1), (523, 1)]⟩,
    ⟨109, 6, [(2, 2), (3, 3)]⟩,
    ⟨31393, 5, [(2, 5), (3, 2), (109, 1)]⟩,
    ⟨10108547, 2, [(2, 1), (7, 1), (23, 1), (31393, 1)]⟩,
    ⟨19, 2, [(2, 1), (3, 2)]⟩,
    ⟨571, 3, [(2, 1), (3, 1), (5, 1), (19, 1)]⟩,
    ⟨5711, 19, [(2, 1), (5, 1), (571, 1)]⟩,
    ⟨11423, 5, [(2, 1), (5711, 1)]⟩,
    ⟨22206313, 5, [(2, 3), (3, 5), (11423, 1)]⟩,
    ⟨41, 6, [(2, 3), (5, 1)]⟩,
    ⟨83, 2, [(2, 1), (41, 1)]⟩,
    ⟨37, 2, [(2, 2), (3, 2)]⟩,
    ⟨149, 2, [(2, 2), (37, 1)]⟩,
    ⟨1789, 6, [(2, 2), (3, 1), (149, 1)]⟩,
    ⟨74837449, 13, [(2, 3), (3, 2), (7, 1), (83, 1), (1789, 1)]⟩,
    ⟨13, 2, [(2, 2), (3, 1)]⟩,
    ⟨53, 2, [(2, 2), (13, 1)]⟩,
    ⟨47, 5, [(2, 1), (23, 1)]⟩,
    ⟨463, 3, [(2, 1), (3, 1), (7, 1), (11, 1)]⟩,
    ⟨565787, 2, [(2, 1), (13, 1), (47, 1), (463, 1)]⟩,
    ⟨28547348873, 3, [(2, 3), (7, 1), (17, 1), (53, 1), (565787, 1)]⟩,
    ⟨73, 5, [(2, 3), (3, 2)]⟩,
    ⟨439, 15, [(2, 1), (3, 1), (73, 1)]⟩,
    ⟨4391, 14, [(2, 1), (5, 1), (439, 1)]⟩,
    ⟨61, 2, [(2, 2), (3, 1), (5, 1)]⟩,
    ⟨67, 2, [(2, 1), (3, 1), (11, 1)]⟩,
    ⟨2887, 5, [(2, 1), (3, 1), (13, 1), (37, 1)]⟩,
    ⟨11753132899, 3, [(2, 1), (3, 1), (13, 1), (19, 1), (41, 1), (67, 1), (2887, 1)]⟩,
    ⟨12904939923103, 3, [(2, 1), (3, 2), (61, 1), (11753132899, 1)]⟩,
    ⟨1803099112058626586861, 2, [(2, 2), (5, 1), (37, 1), (43, 1), (4391, 1), (12904939923103, 1)]⟩,
    ⟨5470365079085120887157193270902448565659295524958143968059153, 15, [(2, 4), (3, 1), (131797, 1), (10108547, 1), (22206313, 1), (74837449, 1), (28547348873, 1), (1803099112058626586861, 1)]⟩]

theorem prime_p : Nat.Prime MontFelt.p := by
  have h : Pratt.check 256 [] (pFactorCertificate ++
      [⟨MontFelt.p, 3, [(2, 192), (5, 1), (7, 1), (98714381, 1), (166848103, 1)]⟩]) = true := by
    decide +kernel
  exact Pratt.prime_of_check_append h

theorem prime_curveOrder : Nat.Prime curveOrder := by
  have h : Pratt.check 256 [] (curveOrderFactorCertificate ++
      [⟨curveOrder, 3, [(2, 1), (3, 1), (1481071, 1), (74436419, 1),
        (5470365079085120887157193270902448565659295524958143968059153, 1)]⟩]) = true := by
    decide +kernel
  exact Pratt.prime_of_check_append h

end Crypto
end Pathfinder
