import LapisMonetae.Params

/-!
# Block subsidy

The emission schedule of `CoinbaseManager`: a constant subsidy before the deflationary phase,
then one table entry per (compressed) month. `CoinbaseManager.new` scales the schedule down to
the target supply with an integer divisor, and rounds every scaled amount up.
-/

namespace LapisMonetae.Coinbase

/-- `SOMPI_PER_KASPA`: the number of base units in one coin. -/
def sompiPerKaspa : ℕ := 100000000

/-- `MAX_SOMPI`: the supply cap, `100,000,000` coins. -/
def maxSompi : ℕ := 100000000 * sompiPerKaspa

/-- `SECONDS_PER_MONTH`: the compressed month of the deflationary schedule. -/
def secondsPerMonth : ℕ := 556920

/-- `SUBSIDY_BY_MONTH_TABLE`: the unscaled reward per second of each deflationary month. -/
def subsidyByMonthTable : List ℕ :=
  [44000000000, 41530469757, 39199543598, 36999442271, 34922823143, 32962755691, 31112698372,
   29366476791, 27718263097, 26162556530, 24694165062, 23308188075, 22000000000, 20765234878,
   19599771799, 18499721135, 17461411571, 16481377845, 15556349186, 14683238395, 13859131548,
   13081278265, 12347082531, 11654094037, 11000000000, 10382617439, 9799885899, 9249860567,
   8730705785, 8240688922, 7778174593, 7341619197, 6929565774, 6540639132, 6173541265,
   5827047018, 5500000000, 5191308719, 4899942949, 4624930283, 4365352892, 4120344461,
   3889087296, 3670809598, 3464782887, 3270319566, 3086770632, 2913523509, 2750000000,
   2595654359, 2449971474, 2312465141, 2182676446, 2060172230, 1944543648, 1835404799,
   1732391443, 1635159783, 1543385316, 1456761754, 1375000000, 1297827179, 1224985737,
   1156232570, 1091338223, 1030086115, 972271824, 917702399, 866195721, 817579891, 771692658,
   728380877, 687500000, 648913589, 612492868, 578116285, 545669111, 515043057, 486135912,
   458851199, 433097860, 408789945, 385846329, 364190438, 343750000, 324456794, 306246434,
   289058142, 272834555, 257521528, 243067956, 229425599, 216548930, 204394972, 192923164,
   182095219, 171875000, 162228397, 153123217, 144529071, 136417277, 128760764, 121533978,
   114712799, 108274465, 102197486, 96461582, 91047609, 85937500, 81114198, 76561608, 72264535,
   68208638, 64380382, 60766989, 57356399, 54137232, 51098743, 48230791, 45523804, 42968750,
   40557099, 38280804, 36132267, 34104319, 32190191, 30383494, 28678199, 27068616, 25549371,
   24115395, 22761902, 21484375, 20278549, 19140402, 18066133, 17052159, 16095095, 15191747,
   14339099, 13534308, 12774685, 12057697, 11380951, 10742187, 10139274, 9570201, 9033066,
   8526079, 8047547, 7595873, 7169549, 6767154, 6387342, 6028848, 5690475, 5371093, 5069637,
   4785100, 4516533, 4263039, 4023773, 3797936, 3584774, 3383577, 3193671, 3014424, 2845237,
   2685546, 2534818, 2392550, 2258266, 2131519, 2011886, 1898968, 1792387, 1691788, 1596835,
   1507212, 1422618, 1342773, 1267409, 1196275, 1129133, 1065759, 1005943, 949484, 896193,
   845894, 798417, 753606, 711309, 671386, 633704, 598137, 564566, 532879, 502971, 474742,
   448096, 422947, 399208, 376803, 355654, 335693, 316852, 299068, 282283, 266439, 251485,
   237371, 224048, 211473, 199604, 188401, 177827, 167846, 158426, 149534, 141141, 133219,
   125742, 118685, 112024, 105736, 99802, 94200, 88913, 83923, 79213, 74767, 70570, 66609,
   62871, 59342, 56012, 52868, 49901, 47100, 44456, 41961, 39606, 37383, 35285, 33304, 31435,
   29671, 28006, 26434, 24950, 23550, 22228, 20980, 19803, 18691, 17642, 16652, 15717, 14835,
   14003, 13217, 12475, 11775, 11114, 10490, 9901, 9345, 8821, 8326, 7858, 7417, 7001, 6608,
   6237, 5887, 5557, 5245, 4950, 4672, 4410, 4163, 3929, 3708, 3500, 3304, 3118, 2943, 2778,
   2622, 2475, 2336, 2205, 2081, 1964, 1854, 1750, 1652, 1559, 1471, 1389, 1311, 1237, 1168,
   1102, 1040, 982, 927, 875, 826, 779, 735, 694, 655, 618, 584, 551, 520, 491, 463, 437, 413,
   389, 367, 347, 327, 309, 292, 275, 260, 245, 231, 218, 206, 194, 183, 173, 163, 154, 146,
   137, 130, 122, 115, 109, 103, 97, 91, 86, 81, 77, 73, 68, 65, 61, 57, 54, 51, 48, 45, 43, 40,
   38, 36, 34, 32, 30, 28, 27, 25, 24, 22, 21, 20, 19, 18, 17, 16, 15, 14, 13, 12, 12, 11, 10,
   10, 9, 9, 8, 8, 7, 7, 6, 6, 6, 5, 5, 5, 4, 4, 4, 4, 3, 3, 3, 3, 3, 2, 2, 2, 2, 2, 2, 2, 1, 1,
   1, 1, 1, 1, 1, 1, 1, 1, 1, 1, 0]

/-- `div_ceil` of the unsigned integer types, for a divisor that is not zero. -/
def divCeil (a b : ℕ) : ℕ :=
  if a % b = 0 then a / b else a / b + 1

/-- The part of `CoinbaseManager` that decides subsidies. -/
structure CoinbaseManager where
  deflationaryPhaseDaaScore : ℕ
  preDeflationaryPhaseBaseSubsidy : ℕ
  bps : ForkedParam ℕ
  subsidyByMonthTableBefore : List ℕ
  subsidyByMonthTableAfter : List ℕ
  crescendoActivationDaaScore : ℕ

/-- The integer divisor that scales the scheduled emission down to the target supply. -/
def emissionDivisor (deflationaryPhaseDaaScore preDeflationaryPhaseBaseSubsidy : ℕ) : ℕ :=
  let targetTotalSompi := 100000000 * sompiPerKaspa
  let preDeflationTotal := preDeflationaryPhaseBaseSubsidy * deflationaryPhaseDaaScore
  let deflationTotal := (subsidyByMonthTable.map (· * secondsPerMonth)).sum
  let scheduledTotal := preDeflationTotal + deflationTotal
  if scheduledTotal ≤ targetTotalSompi then 1
  else divCeil scheduledTotal targetTotalSompi % 2 ^ 64

/-- A subsidy table scaled by `divisor` and divided over `bps` blocks a second. -/
def scaledTable (divisor bps : ℕ) : List ℕ :=
  subsidyByMonthTable.map fun v => divCeil (divCeil v divisor) bps

namespace CoinbaseManager

/-- The manager with the schedule scaled by a divisor. -/
def scaled (divisor deflationaryPhaseDaaScore preDeflationaryPhaseBaseSubsidy : ℕ)
    (bps : ForkedParam ℕ) : CoinbaseManager :=
  { deflationaryPhaseDaaScore
    preDeflationaryPhaseBaseSubsidy := divCeil preDeflationaryPhaseBaseSubsidy divisor
    bps
    subsidyByMonthTableBefore := scaledTable divisor bps.before
    subsidyByMonthTableAfter := scaledTable divisor bps.after
    crescendoActivationDaaScore := bps.activation.daaScore }

/-- `CoinbaseManager::new`, with the parameters that decide the emission. -/
def new (deflationaryPhaseDaaScore preDeflationaryPhaseBaseSubsidy : ℕ)
    (bps : ForkedParam ℕ) : Option CoinbaseManager :=
  let divisor := emissionDivisor deflationaryPhaseDaaScore preDeflationaryPhaseBaseSubsidy
  -- `div_ceil` panics for a divisor of zero, to which the total may be truncated
  if divisor = 0 ∨ bps.before = 0 ∨ bps.after = 0 then none
  else some (scaled divisor deflationaryPhaseDaaScore preDeflationaryPhaseBaseSubsidy bps)

/-- The seconds counted since the deflationary phase started, at the two block rates. -/
def secondsSinceDeflationaryPhase (m : CoinbaseManager) (daaScore : ℕ) : ℕ :=
  if m.crescendoActivationDaaScore < m.deflationaryPhaseDaaScore then
    -- activated before deflation
    (daaScore - m.deflationaryPhaseDaaScore) / m.bps.after
  else if daaScore < m.crescendoActivationDaaScore then
    -- pre activation
    (daaScore - m.deflationaryPhaseDaaScore) / m.bps.before
  else
    (m.crescendoActivationDaaScore - m.deflationaryPhaseDaaScore) / m.bps.before
      + (daaScore - m.crescendoActivationDaaScore) / m.bps.after

/-- The subsidy month of a DAA score in the deflationary phase. -/
def subsidyMonth (m : CoinbaseManager) (daaScore : ℕ) : ℕ :=
  m.secondsSinceDeflationaryPhase daaScore / secondsPerMonth

/-- The subsidy of a block with the given DAA score. -/
def calcBlockSubsidy (m : CoinbaseManager) (daaScore : ℕ) : ℕ :=
  if daaScore < m.deflationaryPhaseDaaScore then
    m.preDeflationaryPhaseBaseSubsidy
  else
    let table :=
      if m.bps.activation.isActive daaScore then m.subsidyByMonthTableAfter
      else m.subsidyByMonthTableBefore
    table.getD (min (m.subsidyMonth daaScore) (table.length - 1)) 0

end CoinbaseManager

/-! ## Mainnet -/

/-- `MAINNET_PARAMS.bps()`: one block a second, ten after Crescendo. -/
def mainnetBps (activation : ForkActivation) : ForkedParam ℕ :=
  ⟨1000 / 1000, 1000 / 100, activation⟩

/-- The divisor of the mainnet schedule. -/
def mainnetDivisor : ℕ := emissionDivisor (15778800 - 259200) 50000000000

/-- The coinbase manager of `MAINNET_PARAMS`, for any Crescendo activation score. -/
def mainnetManager (activation : ForkActivation) : CoinbaseManager :=
  .scaled mainnetDivisor (15778800 - 259200) 50000000000 (mainnetBps activation)

end LapisMonetae.Coinbase
