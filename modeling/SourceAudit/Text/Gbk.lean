/-
# GBK

The double-byte encoding of Chinese texts. Bytes below `0x80` stand for
themselves. Second bytes from `0xA1` on belong to an older set of 94 characters
for each first byte: signs from `0xA1` on and common ideographs from `0xB0` on.
The other places hold further signs and, in the order of their code points, the
ideographs that are not common. A blank in a table stands for a place where
nothing is defined, and a letter for a character that comes soon after the one before.
-/
import SourceAudit.Text.Basic

namespace SourceAudit.Gbk

/-- Reads a text where a letter stands for a character that comes so many places after the one before,
from one on, with the capitals after the others. -/
def spread (before : Char) : List Char → List Char
  | [] => []
  | c :: cs =>
    if c == ' ' then c :: spread before cs
    else
      let here :=
        if c.isLower then Char.ofNat (before.toNat + (c.toNat - 96))
        else if c.isUpper then Char.ofNat (before.toNat + (c.toNat - 38))
        else c
      here :: spread here cs

def rows (texts : List String) : Array (Array Char) :=
  (texts.map fun s => (spread ' ' s.toList).toArray).toArray

/-- The signs with second bytes from `0xA1` on: a row for each first byte from `0xA1` on. -/
def signs : Array (Array Char) := rows [
  "\u3000aa·ˉˇ¨〃b—～‖p‘aca〔a〈aaaaaaaga【a±LF∶∧a∑∏A∩∈U√⊥∥∠⌒⊙∫cY≌≈∽∝≠na≤a∞w∴♂♀°′a℃＄¤￠a‰§№☆★○d◎◇◆□■s▲※→←ab〓",
  "ⅰaaaaaaaaa      ⒈aaaaaaaaaaaaaaaaaaa⑴aaaaaaaaaaaaaaaaaaa①aaaaaaaaa  ㈠aaaaaaaaa  Ⅰaaaaaaaaaaa",
  "！aa￥％aaaaaaaaaaaaaaaaaaaaaaaaaaaaaaaaaaaaaaaaaaaaaaaaaaaaaaaaaaaaaaaaaaaaaaaaaaaaaaaaaaaaaaaa￣",
  "ぁaaaaaaaaaaaaaaaaaaaaaaaaaaaaaaaaaaaaaaaaaaaaaaaaaaaaaaaaaaaaaaaaaaaaaaaaaaaaaaaaaa",
  "ァaaaaaaaaaaaaaaaaaaaaaaaaaaaaaaaaaaaaaaaaaaaaaaaaaaaaaaaaaaaaaaaaaaaaaaaaaaaaaaaaaaaaa",
  "Αaaaaaaaaaaaaaaaabaaaaaa        haaaaaaaaaaaaaaaabaaaaaa       ︵acaea︽acaaa  ︻a︷a︱ ba",
  "АaaaaaЁuaaaaaaaaaaaaaaaaaaaaaaaaa               aaaaaaBжaaaaaaaaaaaaaaaaaaaaaaaaa",
  "āáǎàYéXèīíǐìōóǒòūúǔùǖbbbüêɑ ńd ɡ    ㄅaaaaaaaaaaaaaaaaaaaaaaaaaaaaaaaaaaaa",
  "   ─aaaaaaaaaaaaaaaaaaaaaaaaaaaaaaaaaaaaaaaaaaaaaaaaaaaaaaaaaaaaaaaaaaaaaaaaaaa"]

/-- The signs with second bytes below `0xA1`: a row for each first byte from `0xA8` on. -/
def furtherSigns : Array (Array Char) := rows [
  "ˊan–bpp℅d↖aaa∕jdUta⊿═aaaaaaaaaaaaaaaaaaaaaaaaaaaaaaaaaaanaaaaaaaaaaaaaadaaMaKaaaJ⊕〒ka",
  "〡aaaaaaaa㊣㎎amaacIjcac︰￢b ℡㈱ ‐   ー゛aヽa〆ゝa﹉aaaaaaaaabaaabaaaaaaaaaaaaabaaa             〇"]

/-- The common ideographs: a row for each first byte from `0xB0` on. -/
def common : Array (Array Char) := rows [
  "啊阿埃挨哎唉哀皑癌蔼矮艾碍爱隘鞍氨安俺按暗岸胺案肮昂盎凹敖熬翱袄傲奥懊澳芭捌扒叭吧笆八疤巴拔跋靶把耙坝霸罢爸白柏百摆佰败拜稗斑班搬扳般颁板版扮拌伴瓣半办绊邦帮梆榜膀绑棒磅蚌镑傍谤苞胞包褒剥",
  "薄雹保堡饱宝抱报暴豹鲍爆杯碑悲卑北辈背贝钡倍狈备惫焙被奔苯本笨崩绷甭泵蹦迸逼鼻比鄙笔彼碧蓖蔽毕d毖币庇痹闭敝弊必辟壁臂避陛鞭边编贬扁便变卞辨ab遍标彪膘表鳖憋别瘪彬斌濒滨宾摈兵冰柄丙秉饼炳",
  "病并玻菠播拨钵波博勃搏铂箔伯帛舶脖膊渤泊驳捕卜哺补埠不布步簿部怖擦猜裁材才财睬踩采彩菜蔡餐参蚕残惭惨灿苍舱仓沧藏操糙槽曹草厕策侧册测层蹭插叉茬j查碴搽察岔差诧拆柴豺搀掺蝉馋谗缠铲产阐颤昌猖",
  "场尝常长偿肠厂敞畅唱倡超抄钞朝嘲潮巢吵炒车扯撤掣彻澈郴臣辰尘晨忱沉陈趁衬撑称城橙成呈乘程惩澄诚承逞骋秤吃痴持匙池迟弛驰耻齿侈尺赤翅斥炽充冲虫崇宠抽酬畴踌稠愁筹仇绸瞅丑臭初出橱厨躇锄雏滁除楚",
  "础储矗搐触处揣川穿椽传船喘串疮窗幢N闯创吹炊捶锤垂春椿醇唇淳纯蠢戳绰疵茨磁雌辞慈瓷词此刺赐次聪葱囱匆从丛凑粗醋簇促蹿篡窜摧崔催脆瘁粹淬翠村存寸磋撮搓措挫错搭达答瘩打大呆歹傣戴带殆代贷袋待逮",
  "怠耽担丹单郸掸胆旦氮但惮淡诞弹蛋当挡党荡档刀捣蹈倒岛祷导到稻悼道盗德得的蹬灯登等瞪凳邓堤低滴迪敌笛狄涤翟嫡抵底地蒂第帝弟递缔颠掂滇碘点典靛垫电佃甸店惦奠淀殿碉叼雕凋刁掉吊钓调跌爹碟蝶迭谍叠",
  "丁盯叮钉顶鼎锭定订丢东冬董懂动栋侗恫冻洞兜抖斗陡豆逗痘都督毒犊独读堵睹赌杜镀肚度渡妒端短锻段断缎堆兑队对墩吨蹲敦顿囤钝盾遁掇哆多F垛躲朵跺舵剁惰堕蛾峨鹅俄额讹娥恶厄扼遏鄂饿恩而儿耳尔饵洱二",
  "贰发罚筏伐乏阀法珐藩帆番翻樊矾钒繁凡烦反返范贩犯饭泛坊芳方肪房防妨仿访纺放菲非啡飞肥匪诽吠肺废沸费芬酚吩氛分纷坟焚汾粉奋份忿愤粪丰封枫蜂峰锋风疯烽逢冯缝讽奉凤佛否夫敷肤孵扶拂辐幅氟符伏俘服",
  "浮涪福袱弗甫抚辅俯釜斧脯H府腐赴副覆赋复傅付阜父腹负富讣附妇缚咐噶嘎该改概钙盖溉干甘杆柑竿肝赶感秆敢赣冈刚钢缸肛纲岗港杠篙皋高膏羔糕搞镐稿告哥歌搁戈鸽胳疙割革葛格蛤阁隔铬个各给根跟耕更庚羹",
  "埂耿梗工攻功恭龚供躬公宫弓巩汞拱贡共钩勾沟苟狗垢构购够辜菇咕箍估沽孤姑鼓古蛊骨谷股故顾固雇刮瓜剐寡挂褂乖拐怪棺关官冠观管馆罐惯灌贯光广逛瑰规圭硅归龟闺轨鬼诡癸桂柜跪贵刽辊滚棍锅郭国果裹过哈",
  "骸孩海氦亥害骇酣憨邯韩含涵寒函喊罕翰撼捍旱憾悍焊汗汉夯杭航壕嚎豪毫郝好耗号浩呵喝荷菏核禾和何合盒貉阂河涸赫褐鹤贺嘿黑痕很狠恨哼亨横衡恒轰哄烘虹鸿洪宏弘红喉侯猴吼厚候后呼乎忽瑚壶葫胡蝴狐糊湖",
  "弧虎唬护互沪户花哗华猾滑画划化话槐徊怀淮坏欢环桓还缓换患唤痪豢焕涣宦幻荒慌黄磺蝗簧皇凰惶煌晃幌恍谎灰挥辉徽恢蛔回毁悔慧卉惠晦贿秽会烩汇讳诲绘荤昏婚魂浑混豁活伙火获或惑霍货祸击圾基机畸稽积箕",
  "肌饥迹激讥鸡姬绩F吉极棘辑籍集及急疾汲即嫉级挤几脊己蓟技冀季伎祭剂悸济寄寂计o既忌际妓继纪嘉枷夹佳家加荚颊贾甲钾假稼价架驾嫁歼监坚尖笺间煎兼肩艰奸缄茧检柬碱硷拣捡简俭剪减荐槛鉴践贱见键箭件",
  "健舰剑饯渐溅涧建僵姜将浆江疆蒋桨奖讲匠酱降蕉椒礁焦胶交郊浇骄娇嚼搅铰矫侥脚狡角饺缴绞剿教酵轿d叫窖揭接皆秸街阶截劫节桔杰捷睫竭洁结解姐戒藉芥界借介疥诫届巾筋斤金今津襟紧锦仅谨进靳晋禁近烬浸",
  "尽劲荆兢茎睛晶鲸京惊精粳经井警景颈静境敬镜径痉靖竟竞净炯窘揪究纠玖韭久灸九酒厩救旧臼i咎就疚鞠拘狙疽居驹菊局咀矩举沮聚拒据巨具距踞锯俱句惧炬剧捐鹃娟倦眷卷绢撅攫抉掘倔爵觉决诀绝均菌钧军君峻",
  "俊竣浚郡骏喀咖卡咯开揩楷凯慨刊堪勘坎砍看康慷糠扛抗亢炕考拷烤靠坷苛柯棵磕颗科壳咳可渴克刻客课肯啃垦恳坑吭空恐孔控抠口扣寇枯哭窟苦酷库裤夸垮挎跨胯块筷侩快宽款匡筐狂框矿眶旷况亏盔岿窥葵奎魁傀",
  "馈愧溃坤昆捆困括扩廓阔垃拉喇蜡腊辣啦莱来赖蓝婪栏拦篮阑兰澜谰揽览懒缆烂滥琅榔狼廊郎朗浪捞劳牢老佬姥酪烙涝勒乐雷镭蕾磊累儡垒擂肋类泪棱楞冷厘梨犁黎篱狸离漓理李里鲤礼莉荔吏栗丽厉励砾历利傈例俐",
  "痢立粒沥隶力璃哩俩联莲连镰廉怜涟帘敛脸链恋炼练粮凉梁粱良两辆量晾亮谅撩聊僚疗燎寥辽潦了撂镣廖料列裂烈劣猎琳林磷霖临邻鳞淋凛赁吝拎玲菱零龄铃伶羚凌灵陵岭领另令溜琉榴硫馏留刘瘤流柳六龙聋咙笼窿",
  "隆垄拢陇楼娄搂篓漏陋芦卢颅庐炉掳卤虏鲁麓碌露路赂鹿潞禄录陆戮驴吕铝侣旅履屡缕虑氯律率滤绿峦挛孪滦卵乱掠略抡轮伦仑沦纶论萝螺罗逻锣箩骡裸落洛骆络妈麻玛码蚂马v嘛吗埋买麦卖迈脉瞒馒蛮满蔓曼慢漫",
  "谩芒茫盲氓忙莽猫茅锚毛矛铆卯茂冒帽貌贸么玫枚梅酶霉煤没眉媒镁每美昧寐妹媚门o们萌蒙檬盟锰猛梦孟眯醚靡糜迷谜弥米秘觅泌蜜密幂棉眠绵冕免勉娩缅面苗描瞄藐秒渺庙妙蔑灭民抿皿敏悯闽明螟鸣铭名命谬摸",
  "摹蘑模膜磨摩魔抹末莫墨默沫漠寞陌谋牟某拇牡亩姆母墓暮幕募慕木目睦牧穆拿哪呐钠那娜纳氖乃奶耐奈南男难囊挠脑恼闹淖呢馁内嫩能妮霓倪泥尼拟你匿腻逆溺蔫拈年碾撵捻念娘酿鸟尿捏聂孽啮镊c涅您柠狞凝宁",
  "拧泞牛扭钮纽脓浓农弄奴努怒女暖虐疟挪懦糯诺哦欧鸥殴藕呕偶沤啪趴爬帕怕琶拍排牌徘湃派攀潘盘磐盼畔判叛乓庞旁耪胖抛咆刨炮袍跑泡呸胚培裴赔陪配佩沛喷盆砰抨烹澎彭蓬棚硼篷膨朋鹏捧碰坯砒霹批X劈琵毗",
  "啤脾疲皮匹痞僻屁譬篇偏片骗飘漂瓢票撇瞥拼频贫品聘乒坪苹萍平凭瓶评屏坡泼颇婆破魄迫粕剖扑铺仆莆葡菩蒲埔朴圃普浦谱曝瀑期欺栖戚妻七凄漆柒沏其棋奇歧畦崎脐齐旗祈祁骑起岂乞企启契砌器气迄弃汽泣讫掐",
  "恰洽牵扦钎铅千迁签仟谦乾黔钱b前潜遣浅谴堑嵌欠O枪呛腔羌墙蔷强抢橇锹敲悄桥瞧乔侨巧鞘撬翘峭俏窍切茄且怯窃钦侵亲秦琴勤芹擒禽寝沁青轻氢倾卿清擎晴氰情顷请庆琼穷秋丘邱球求囚酋泅趋区蛆曲躯屈驱渠",
  "取娶龋趣去圈颧权醛泉全痊拳犬券劝缺炔瘸却鹊榷确雀裙群然燃冉染瓤壤攘嚷让饶扰绕惹热壬仁人忍韧任认刃妊纫扔仍日戎茸蓉荣融熔溶容绒冗揉柔肉茹蠕儒孺如辱乳汝入褥软阮蕊瑞锐闰润若弱撒洒萨腮鳃塞赛三叁",
  "伞散桑嗓丧搔骚扫嫂瑟色涩森僧莎砂杀刹沙纱傻啥煞筛晒珊苫杉山删煽衫闪陕擅赡膳善汕扇缮墒伤商赏晌上尚裳梢捎稍烧芍勺韶少哨邵绍奢赊蛇舌a赦摄射慑涉社设砷申呻伸身深娠绅神沈审婶甚肾慎渗声生f牲升绳",
  "省盛剩胜圣师失狮施湿诗尸虱十石拾时什食蚀实识史矢使屎驶始式示士世柿事拭誓逝势是嗜噬适仕侍释饰氏市恃室视试收手首守寿授售受瘦兽蔬枢梳殊抒输叔舒淑疏书赎孰熟薯暑曙署蜀黍鼠属术述树束戍竖墅庶数漱",
  "恕刷耍摔衰甩帅栓拴霜双爽谁水睡税吮瞬顺舜说硕朔烁斯撕嘶思私司丝死肆寺嗣四伺b饲巳松耸怂颂送宋讼诵搜艘擞嗽苏酥俗素速粟僳塑溯宿诉肃酸蒜算虽隋d绥髓碎岁穗遂隧祟孙损笋蓑梭唆缩琐索锁所塌他它她塔",
  "獭挞蹋踏胎苔抬台泰酞太态汰坍摊贪瘫滩坛檀痰潭谭谈坦毯袒碳探叹炭汤塘搪堂棠膛唐糖倘躺淌趟烫掏涛滔绦萄桃逃淘陶讨套特藤腾疼誊梯剔踢锑提题蹄啼体替嚏惕涕剃屉天添填田甜恬舔腆挑条迢眺跳贴铁帖厅听烃",
  "汀廷停亭庭挺艇通桐酮瞳同铜彤童桶捅筒统痛偷投头透凸秃突图徒途涂屠土吐兔湍团推颓腿蜕褪退吞屯臀拖托脱鸵陀驮n椭妥拓唾挖哇蛙洼娃瓦袜歪外豌弯湾玩顽丸烷完碗挽晚皖惋宛婉万腕汪王亡枉网往旺望忘妄威",
  "巍微危韦违桅围唯惟为潍维苇萎委伟k尾纬未蔚味畏胃喂魏位渭谓尉慰卫瘟温蚊文闻纹吻稳紊问嗡翁瓮挝蜗涡窝我斡卧握沃巫呜钨乌污诬屋无芜梧吾吴毋武五捂午舞伍侮坞戊雾晤物勿务悟误昔熙析西硒矽晰嘻吸锡牺",
  "稀息希悉膝夕惜熄烯溪汐犀檄袭席习媳喜铣洗系隙戏细瞎虾匣霞辖暇峡侠狭下厦夏吓掀锨先仙鲜纤咸贤衔舷闲涎弦嫌显险现献县腺馅羡宪陷限线相厢镶香箱襄湘乡翔祥详想响享项巷橡像向象萧硝霄削哮嚣销消宵淆晓",
  "小孝校肖啸笑效楔些歇蝎鞋协挟携邪斜胁谐写械卸蟹懈泄泻谢屑薪芯锌欣辛新忻心信衅星腥猩惺兴刑型形邢行醒幸杏性姓兄凶胸匈汹雄熊休修羞朽嗅锈秀袖绣墟戌需虚嘘须徐许蓄酗叙旭序畜恤絮婿绪c轩喧宣悬旋玄",
  "选癣眩绚靴薛学穴雪血勋熏循旬询寻驯巡殉汛训b逊迅压押鸦g呀丫芽牙蚜崖衙涯雅哑亚讶焉咽阉烟淹盐严研蜒岩延言颜阎炎沿奄掩眼衍演艳堰燕厌砚雁唁彦焰宴谚验殃央鸯秧杨扬佯疡羊洋阳氧仰痒养样漾邀腰妖瑶",
  "摇尧遥窑谣姚咬舀药要耀椰噎耶爷野冶也页掖业叶曳腋夜液一壹医揖铱依伊衣颐夷遗移仪胰疑沂宜姨彝椅蚁倚已乙矣以艺抑易邑屹亿役臆逸肄疫亦裔意毅忆义益溢诣议谊译异翼翌绎茵荫因殷音阴姻吟银淫寅饮尹引隐",
  "印英樱婴鹰应缨莹萤a荧蝇迎赢盈影颖硬映哟拥佣臃痈庸雍踊蛹咏泳涌永恿勇用幽优悠忧尤由邮铀犹油游酉有友N佑釉诱又幼迂淤于盂榆虞愚舆余俞逾鱼愉渝渔隅予娱雨与屿禹宇语羽玉域芋郁吁遇喻峪御愈欲狱育誉",
  "浴寓裕预豫驭鸳渊冤元垣袁原援辕园员圆猿源缘远苑愿怨院曰约越跃钥岳粤月悦阅耘云郧匀陨允运蕴酝晕韵孕匝砸杂栽哉灾宰载再在咱攒暂赞赃脏葬遭糟凿藻枣早澡蚤躁噪造皂灶燥责择则泽贼怎增憎曾赠扎喳渣札轧",
  "铡闸眨栅榨咋乍炸诈摘斋宅窄债寨瞻毡詹粘沾盏斩辗崭展蘸栈占战站湛绽樟章彰漳张掌涨杖丈帐账仗胀瘴障招昭找沼赵照罩兆肇召遮折哲蛰辙者锗蔗这浙珍斟真甄砧臻贞针侦枕疹诊震振镇阵蒸挣睁征狰争怔整拯正政",
  "帧症郑证芝枝支吱蜘知肢脂汁之织职直植殖执值侄址指止趾只旨纸志挚掷至a置帜峙制智秩W质炙痔滞治窒中盅忠钟衷终种肿重仲K舟周州洲诌粥轴肘帚咒皱宙昼骤珠株蛛朱猪诸诛逐竹烛煮拄瞩嘱主著柱助蛀贮铸筑",
  "住注祝驻抓爪拽专砖转撰赚篆桩庄装妆撞壮状椎锥追赘坠缀谆准捉拙卓桌琢茁酌啄着灼浊兹咨资姿滋淄孜紫仔籽滓子自渍字鬃棕踪宗综总纵邹走奏揍租足卒族祖诅阻组钻纂嘴醉最罪尊遵昨左佐柞做作坐座",
  "亍丌兀丐廿卅丕亘丞鬲孬噩丨禺丿匕乇夭爻卮氐囟胤馗毓睾鼗丶亟鼐乜mP芈孛啬嘏仄厍pfbi靥赝匚叵匦hp赜卦卣刂ffEflalrc剜蒯剽e劁oc冂罔亻hf仂L仡j仞伛仳U佤仵Vb伉HYi攸佚c",
  "佟佗伲k佶佴C侉侃l佾佻U佼V侔俦bb俅ui俜俑nyWI俳倬倏E倭俾D倌yc偾偃r偈fDoPbbqBV僭僬僦hyd仝氽佘m俎龠汆籴兮巽黉馘冁夔勹t訇匐凫夙兕亠兖亳衮袤亵脔裒禀嬴蠃羸冫fl冼",
  "凇冖lc讠facjabkahd诎daabbaccaddaebcccccabbcecbabaacb谘ebaadbcacacaba卩q阝e阡p阪s阼fgkkhefbtejy邗db邙s邡s邳cd",
  "邸邰E郅邾r郄cls郢郜郗dpdofD鄞en鄯jjc刍奂劢jaq哿勐fz叟燮矍廴凵g鬯厶弁畚巯坌垩垡塾墼il圩c圪if圮aS圻gMB坫A坼坻坨ei坳垭垤垌LC垧m垓m埕cb埙埒垸埴埯i埤埝",
  "堋b埽埭sD堙Q堠塥guhq墀馨鼙懿艹dbp芊D芄jcfbrmf芰xby芘E芮Ca苁芩k芡i芟Kj芤苡N苷苤Q茇苜x苒fZ苻苓茑i茆na苠苕茜荑ja茈莒茼茴茱莛荞茯F荇荃B荀茗荠茭m茳Y荥",
  "荨茛荩c荪ca莰荸莳a莠j莓i莅荼莶莩荽莸荻Cfjrbe萁菥菘堇萘萋菝F菖萜B萑萆菔kV萃菸a菪菅菀萦菰菡葜葑i葙zta葺o葸萼jImvb萱葭蓁lcv蒽v蓊蒿蒺L蒡x蒴蒗蓥蓣O甍蔸蓰蔹蔟A",
  "蕖蔻蓿蓼蕙蕈F蕤蕞B瞢蕃UiOd薇h蕹薮薜薅Z薷薰I藁AIN蘅J蘖L廾j夼e耷奕e奘匏尢cgh扌D抟Bop拗wZ拶挹r捃掭揶捱itL捭掬掊捩掮n揲f揠E揄z揎摒揆掾摅摁搋pe搌z搡摞L摭O",
  "摺撷a撙Gfpgm擢MBi弋忒甙弑卟叱l叩叨swd吆呋gaab呃吡呗b吣o咂r呷呱呤咚a咄呶呦咝Y咭u咴D咧咦Sa呲WX咻dmmab咩a咤哝哏o唛哧唠哽w哳Ua唏bvc啧NL啉J啁t唿q唼",
  "唷EEaa唳唰RU嗒喃Th喈喁D啾嗖喑啻嗟喽a喔e嗪m嗉嘟嗑za嗔r嗝嗄Q嗥ma嗌aAm嗤辔嘞嘈d嘁I嘣嗾bMfQ嘹D嘬Gu噙c噌hX噤m噫painBKcfdt囫nfef圉s帏j帔帑Fja",
  "帷mpgcc岌屺scf岈pa岑iby岢A岬岫f岣D岷mnr峋zCaJ崦h崤崞崆u嵘崾崴iU嵛t嵝n嵋嵊Eknwd豳嶷n彳dkebcidclehg衢彡犭cdcak狁m狍evg狩ibcj狳p狺",
  "狻B猓n猊t猝猕mw猥gl猱E獍jilco舛夥飧夤夂饣daaaaahcfcdccccabaa庀q庋ko庠y庵i庳赓廒廑jmb膺忄em忏Z忮v忡czga忪ckGB怦怛怏怍Bb怊怿怡恸ab恺恂",
  "恪syds悝悃o悌o惬悻悱R惘惆t悴愠f愕n惴lnCEQ憬憔spCG忝隳闩bfbbafbeabbbaaabccaaba丬爿戕氵Eh汊沣沅kd沌汨akbpIMd沭泷a泱泗沲T泖J泫c沱HBo",
  "洹洧洌浃e洇洄u洎CH洮g洚浏cb洳涑浯Ub浞涓a浜dB浣渚淇淅yV涿GW淦淝淙渖涫渌涮渫湮湎C溲湟M湓a渲渥E滟溱溘滠漭滢溥bv溻溷F溴A溏Y溟潢潆a漤漕滹漯guO漪漉F澉d澌潸潲j潺濑",
  "濉澧r澶lEm濞boQi瀛D瀵zo宀dq宓rs甯骞搴寤j褰寰蹇謇辶Cbpi迤e迦m迨C逄gA逑逍ikta逭buma遐x遘j遛暹遴ief邃h彐g彖b尻咫屐i孱屣c羼弪弩d艴弼鬻屮妁bjBa妣",
  "妗Y妫妞fT妲妯N妾娅a姝Q姣姘Gs娉Ob娑r娓SM婊k娼Ls胬媪媛婷c媾S媲Fb媸Ncn嫖p嫘dSn嬖Bei尕g孚kn孑bo驵babe驽cadcbfbacbcaabababb纟bbbca",
  "纭cnbaagbaddcdeagccabaA绶daccaadacacbaebc缛dbaaaaaacaaabaaaab幺畿巛甾邕玎cC玢玟V珂o玷玳mi珈C珙顼琊珩珧珞玺珲CAW琦琥ch琮琬",
  "琛琚MA瑗瑕dD瑭qD璎璀afdsja璐wQ璺韪aa杌gk杈G枥枇杪iKo杵Y枞o枋杷e柰y柘X柩枰栌柙枵K枳PI柃枸PR柁柽栲aSa桎t桄FE栝桕q桁L桀栾l桉栩梵梏桴cB桫棂楮棼Ia棹",
  "椤棰A椁楗棣S楱椹M楂AM楫ux楸椴槌榇a槎榉楦楣vHlt榫bM榱piu榕槠榍槿V槭Pa橥槲橄樾檠橐k樵檎橹樽樨VJu檐y檗t猷A殁ae殄na殍mafi轫bdaabab轷babbcabcd",
  "辍aaib軎戋lddc戡d戤h臧瓯ekpbb攴旮aazo杲昃r昀炅曷昝w昱e昵耆晟晔晁ngk晗FmhA暝GCajc贲acebceaba赇fhd觇caabaaa牮W牝iioaegbbc挈P掰",
  "搿擘耄毪ij毵dlb氆ghcaagh氤fh攵Fv牍ed爰虢刖肟肜肓O朊肽肱肫bgcVaaa胛胂bu胍j朐胝nfc胭Fa胲j朕脒豚脶脞n脘zvdgG腙aw腠isa腭腧塍媵膈膂o滕膣gH朦臊膻",
  "臁膦欤sbjcs飑aabda殳彀毂觳斐齑斓Oj旄旃ibdd炀B炖gDe炷炫f烨烊焐ccyb煳煜l煅S煊TbDAb熨熠燠燔srJk灬焘煦熹戾戽fea礻efcra祓gh祗io祧skepml忑忐",
  "怼G恚m恁xj悫愆g慝憩憝Tf戆肀聿沓泶淼矶bhina砑斫砭砜aBaa砟C砥g砣fKE硖a砦P硇eDW碓g碇uebog碥Ue磉Ifs磴Eq礞v龛黹ba盱si盹narh眙t眦ocxa睇睃wn",
  "睢czn睽clenapeh町fn畋畈swgj罘i罟詈罨l罱hh罾盍x蠲钅aad钊babadc钕eaagag钪c钬cabbbaaaababedaaaaaabaacaab铘ccaabbabab",
  "铩bcadaabbcabd锂dabacaacaaaabcbaacha锩ceabbaadbac锵oaaccbacaabaaabca镝dabaaaaaaaacbaa锺矧e雉秕x秣hA嵇稃稂B稔",
  "稹稷z黏馥穰皈fefk瓞b甬鸠bfaaaaf鸱eb鸷badcabbaaababcdbcaabecaaaaaae鹭f疒bbj疝o疣padl疱疰s痂t痍ve痦痤g痧B痱kcq瘀egk瘊A瘘瘕d",
  "瘛G瘢瘠F瘭co瘵n瘾瘳zq癔h癖ud翊竦穸agfbmq窠l窨ef衤eikbcFJ袷emy裎ublO裼裨v裰W褙褓h褊P褫kkKu疋胥皲b矜耒bbfdbcaab耨i耋Pncgewh覃顸hc",
  "颉cabefacabaca虍gxbq虺b虻S蚍蚋G蚝j蚣g蚓vmn蚵y蚰j蚱蚯zf蚴蛩ha蛭f蛐蜓蛞v蛟蛘蛑Xd蛸pbc蜉zx蜞gi蜚Jj蜴蜱蜩nh螂蜢蝽a蝻蝠p蝌HC蝓py蝤蝙lTB螨P",
  "蟆螈螅N螗螃N蟥螬i螳xh螽t蟀jqo蟠nN蠓蟾lqfxc缶lba舐竺ck笃aq笊G笏筇笸笪笙uc笠e笤ok笞筘b筅V筌qcnm筢p筱Evaq箬箝k箅K箜fiiC篁kq篚kadH篾篼sg簋",
  "簟k簦ri籀臾cab臬衄舡aajb舨cmc舳ajfebdkei衾gc裘g襞羝bhhab籼敉粑l粜bdpjadfea糈糅rq艮暨羿ogp翡ecee糸絷Uh繇纛麸麴赳qp趑F赧f豇b酊f酎au",
  "酢酡o酩fna酲bes醅k醍dqagcaaf醴f豕鹾趸Yz蹙p趵j趼趺jracd跎al跆Lka跣vb跤K跽wibmb踣lkf踹踵h踱x蹁aoa蹊Lff蹯eqje躐lb豸jh貅s貔斛觖h觚b",
  "觥fd訾謦靓雩j雯w霁gg霎Bccn龀cbaaaaab黾mb隹caqd瞿雠銎Fz錾R鏊鎏鐾S鱿ccaaa稣鲋cbaabaeacaaaaabaaaabbabaaaaaaacaaagaaaca",
  "鳌aaaacaabaacabc靼ilabA鞫鞣ob骱骰g鹘骶dbe髀e髂iae魅魃db魈ed飨KGM饔髟bei髫p髭logdld麽a縻麂eacg鏖麝b黛aac黟cg黧黥eeYjcj鼷faf"]

/-- For each ideograph from `U+4E00` on, whether it is a common one. -/
def isCommon : Array Bool :=
  (common.flatten.filter (· != ' ')).foldl (fun marks c => marks.setIfInBounds (c.toNat - 0x4e00) true)
    (.replicate (0x9fa6 - 0x4e00) false)

/-- The ideographs that are not common, and some that have two code points. -/
def uncommon : Array Char :=
  ((List.range isCommon.size).filter fun k => !isCommon.getD k false).toArray.map
    (fun k => Char.ofNat (0x4e00 + k)) ++
    ("\uf92c\uf979\uf995\uf9e7\uf9f1\ufa0c\ufa0d\ufa0e\ufa0f\ufa11\ufa13" ++
      "\ufa14\ufa18\ufa1f\ufa20\ufa21\ufa23\ufa24\ufa27\ufa28\ufa29").toList.toArray

def find? (a b : Nat) : Option Char :=
  if b < 0xa1 then
    let column := if b < 0x7f then b - 0x40 else b - 0x41
    if a < 0xa1 then uncommon[(a - 0x81) * 190 + column]?
    else if 0xaa ≤ a then uncommon[6080 + (a - 0xaa) * 96 + column]?
    else if 0xa8 ≤ a then (furtherSigns.getD (a - 0xa8) #[])[column]?
    else none
  else if a < 0xa1 then uncommon[(a - 0x81) * 190 + (b - 0x41)]?
  else if a < 0xaa then (signs.getD (a - 0xa1) #[])[b - 0xa1]?
  else if 0xb0 ≤ a then (common.getD (a - 0xb0) #[])[b - 0xa1]?
  else none

def char? (a b : UInt8) : Option Char :=
  if a < 0x81 || a == 0xff || b < 0x40 || b == 0x7f || b == 0xff then none
  else (find? a.toNat b.toNat).filter (· != ' ')

/-- Decodes bytes up to a first byte at the very end: the characters and what is left. -/
def decodeFrom (done : List Char) : List UInt8 → Option (List Char × List UInt8)
  | [] => some (done.reverse, [])
  | [a] =>
    if a < 0x80 then some ((Char.ofNat a.toNat :: done).reverse, []) else some (done.reverse, [a])
  | a :: b :: bs =>
    if a < 0x80 then decodeFrom (Char.ofNat a.toNat :: done) (b :: bs)
    else
      match char? a b with
      | some c => decodeFrom (c :: done) bs
      | none => none

def decode? (bs : List UInt8) : Option String :=
  match decodeFrom [] bs with
  | some (cs, []) => some (String.ofList cs)
  | _ => none

end SourceAudit.Gbk
