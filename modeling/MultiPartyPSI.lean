import MultiPartyPSI.Defs
import MultiPartyPSI.Followers.Follower
import MultiPartyPSI.Followers.NaiveFollower
import MultiPartyPSI.Followers.OverfullBin
import MultiPartyPSI.Followers.PolynomialFollower
import MultiPartyPSI.Followers.SimpleHashingNaiveFollower
import MultiPartyPSI.Followers.SimpleHashingPolynomialFollower
import MultiPartyPSI.Gbf.FullFilter
import MultiPartyPSI.Gbf.GarbledBF
import MultiPartyPSI.Gbf.Util
import MultiPartyPSI.Hashing.Cuckoo
import MultiPartyPSI.Hashing.CuckooRun
import MultiPartyPSI.Hashing.HashElement
import MultiPartyPSI.Hashing.HashingUtil
import MultiPartyPSI.Hashing.Locality
import MultiPartyPSI.Hashing.Permutation
import MultiPartyPSI.Hashing.Placement
import MultiPartyPSI.Hashing.SimpleHashing
import MultiPartyPSI.Hashing.SimpleHashingIndex
import MultiPartyPSI.Hashing.SimpleHashingRun
import MultiPartyPSI.Kissner.Aggregation
import MultiPartyPSI.Kissner.Exchange
import MultiPartyPSI.Kissner.KissnerParty
import MultiPartyPSI.Kissner.KissnerRun
import MultiPartyPSI.Kissner.KissnerScript
import MultiPartyPSI.Kissner.MachineArithmetic
import MultiPartyPSI.Kissner.NTL
import MultiPartyPSI.Kissner.PaillierParty
import MultiPartyPSI.Kissner.PaillierScheme
import MultiPartyPSI.Kissner.Scheme
import MultiPartyPSI.Leaders.Leader
import MultiPartyPSI.Leaders.NaiveInverseLeader
import MultiPartyPSI.Leaders.NaiveLeader
import MultiPartyPSI.Leaders.PolynomialLeader
import MultiPartyPSI.Leaders.TwoPartyLeader
import MultiPartyPSI.Lib.BinaryPoly
import MultiPartyPSI.Lib.BitExchange
import MultiPartyPSI.Lib.BitMatrix
import MultiPartyPSI.Lib.Buffer
import MultiPartyPSI.Lib.ByteStream
import MultiPartyPSI.Lib.Echelon
import MultiPartyPSI.Lib.Fifo
import MultiPartyPSI.Lib.ForkJoin
import MultiPartyPSI.Lib.LittleEndian
import MultiPartyPSI.Lib.Loop
import MultiPartyPSI.Lib.PointerTable
import MultiPartyPSI.Lib.Proc
import MultiPartyPSI.Lib.Scenario
import MultiPartyPSI.Lib.Script
import MultiPartyPSI.Lib.Shamir
import MultiPartyPSI.Lib.SquareModulus
import MultiPartyPSI.Lib.Xor
import MultiPartyPSI.Lib.ZeroSum
import MultiPartyPSI.Oprg.Agreement
import MultiPartyPSI.Oprg.BaseOtRun
import MultiPartyPSI.Oprg.CodeWords
import MultiPartyPSI.Oprg.NaorPinkas
import MultiPartyPSI.Oprg.OpeMasking
import MultiPartyPSI.Oprg.OprgRun
import MultiPartyPSI.Oprg.OtExtension
import MultiPartyPSI.Oprg.OtRoutines
import MultiPartyPSI.Oprg.OtThreads
import MultiPartyPSI.Oprg.Positions
import MultiPartyPSI.Oprg.ServerExpand
import MultiPartyPSI.Party.CommonElements
import MultiPartyPSI.Party.ConnectRun
import MultiPartyPSI.Party.HashInfo
import MultiPartyPSI.Party.MaskSize
import MultiPartyPSI.Party.MultiPartyPlayer
import MultiPartyPSI.Party.NaiveRun
import MultiPartyPSI.Party.PsiParty
import MultiPartyPSI.Party.PsiRun
import MultiPartyPSI.Party.SecretShare
import MultiPartyPSI.Strategies.BloomFilter
import MultiPartyPSI.Strategies.NaiveMethod
import MultiPartyPSI.Strategies.Polynomials
import MultiPartyPSI.Strategies.SimpleHash
import MultiPartyPSI.Strategies.Solving
import MultiPartyPSI.Strategies.TwoParty
import MultiPartyPSI.Util.CBitVector
import MultiPartyPSI.Util.EklundhTranspose
import MultiPartyPSI.Util.GF2MatrixUtils
import MultiPartyPSI.Util.Interpolation
import MultiPartyPSI.Util.Pivots
import MultiPartyPSI.Util.PolynomialUtils
import MultiPartyPSI.Util.Rank
import MultiPartyPSI.Util.Threads
import MultiPartyPSI.Util.Typedefs
